import NanomsgDemo.Http.LwUtil
import NanomsgDemo.Lib.Tokens

/-!
# Cutting strings in place

`lw_strtok_r` writes a NUL over each delimiter it finds, into the buffer of the
caller. Here a buffer is the bytes in front of its last NUL, a `char*` into it is an
offset, and the string at an offset is what stands there at that moment.

A call leaves everything behind the string it cuts as it was (`lwStrtokR_drop`), and
writes nothing but NULs (`OnlyNuls`). With that, the calls on a buffer do what the
calls of `NanomsgDemo.Http.lwStrtokR` do on the strings in it (`lwStrtokR_eq`), and
`split` returns the tokens of its string.
-/

namespace NanomsgDemo.Http.InPlace

open Net (Byte CString chr)
open Tokens

/-- The string at an offset. -/
def str (buf : List Byte) (p : Nat) : CString := CString.ofBuffer (buf.drop p)

@[simp] theorem str_zero (c : CString) : str c.bytes 0 = c := CString.ofBuffer_bytes c

/-- `strchr(delim, c)` of a `c` that is not NUL. -/
def strchr (delim : CString) (c : Byte) : Bool := decide (c ∈ delim.bytes)

/-- `while (*cp && !strchr(delim, *cp)) ++cp;` -/
def scan (buf : List Byte) (delim : CString) (cp : Nat) : Nat :=
  cp + ((str buf cp).bytes.takeWhile fun c => !strchr delim c).length

/-- `lw_strtok_r`: the buffer, the token and `*state`. -/
def lwStrtokR (buf : List Byte) (s : Option Nat) (delim : CString) (state : Option Nat) :
    List Byte × Option Nat × Option Nat :=
  match s.or state with
  | none => (buf, none, state)
  | some start =>
      let cp := scan buf delim start
      if buf.getD cp 0 = 0 then
        if cp = start then (buf, none, state) else (buf, some start, none)
      else (buf.set cp 0, some start, some (cp + 1))

/-! ## What stands at an offset -/

section Strings

variable {buf : List Byte} {p : Nat} {t rest tail : List Byte} {c : Byte}

theorem str_bytes (buf : List Byte) (p : Nat) :
    (str buf p).bytes = (buf.drop p).takeWhile (· ≠ 0) := rfl

/-- The buffer from an offset on: the string there, and what a NUL keeps from it. -/
theorem drop_eq_str (buf : List Byte) (p : Nat) :
    ∃ tail, buf.drop p = (str buf p).bytes ++ tail ∧ ∀ b ∈ tail.head?, b = 0 := by
  refine ⟨(buf.drop p).dropWhile (· ≠ 0), ?_, ?_⟩
  · rw [str_bytes, List.takeWhile_append_dropWhile]
  · intro b hb
    have hhead := List.head?_dropWhile_not (fun b : Byte => decide (b ≠ 0)) (buf.drop p)
    rw [Option.mem_def.mp hb] at hhead
    simpa using hhead

theorem str_of_drop (hdrop : buf.drop p = t ++ tail) (ht : ∀ b ∈ t, b ≠ 0)
    (htail : ∀ b ∈ tail.head?, b = 0) : (str buf p).bytes = t := by
  have hpos : ∀ b ∈ t, decide (b ≠ 0) = true := fun b hb => decide_eq_true (ht b hb)
  rw [str_bytes, hdrop, List.takeWhile_append_of_pos hpos]
  cases tail with
  | nil => simp
  | cons b tail =>
      have hb : b = 0 := htail b rfl
      rw [List.takeWhile_cons_of_neg (by simp [hb]), List.append_nil]

/-- Offsets into a string count from where it starts. -/
theorem getD_of_drop (hdrop : buf.drop p = t ++ tail) :
    buf.getD (p + t.length) 0 = tail.getD 0 0 := by
  have hget : buf.getD (p + t.length) 0 = (buf.drop p).getD t.length 0 := by
    simp only [List.getD_eq_getElem?_getD, List.getElem?_drop]
  rw [hget, hdrop]
  simp only [List.getD_eq_getElem?_getD]
  rw [List.getElem?_append_right (Nat.le_refl _), Nat.sub_self]

/-- Behind the string is its NUL. -/
theorem getD_str_end (buf : List Byte) (p : Nat) :
    buf.getD (p + (str buf p).bytes.length) 0 = 0 := by
  obtain ⟨tail, hdrop, htail⟩ := drop_eq_str buf p
  rw [getD_of_drop hdrop]
  cases tail with
  | nil => rfl
  | cons b tail => exact htail b rfl

/-- A byte of a string is in the buffer. -/
theorem lt_length_of_str (h : (str buf p).bytes = t ++ c :: rest) :
    p + t.length < buf.length := by
  obtain ⟨tail, hdrop, _⟩ := drop_eq_str buf p
  have hlen := congrArg List.length hdrop
  rw [h] at hlen
  simp only [List.length_drop, List.length_append, List.length_cons] at hlen
  omega

/-- What a NUL in the middle makes of a string. -/
theorem drop_set_of_str (h : (str buf p).bytes = t ++ c :: rest) :
    ∃ tail, (buf.set (p + t.length) 0).drop p = t ++ 0 :: (rest ++ tail) ∧
      ∀ b ∈ tail.head?, b = 0 := by
  obtain ⟨tail, hdrop, htail⟩ := drop_eq_str buf p
  refine ⟨tail, ?_, htail⟩
  rw [List.drop_set, if_neg (by omega), Nat.add_sub_cancel_left, hdrop, h]
  simp

/-- The part in front of the NUL. -/
theorem str_set_front (h : (str buf p).bytes = t ++ c :: rest) :
    (str (buf.set (p + t.length) 0) p).bytes = t := by
  obtain ⟨tail, hdrop, _⟩ := drop_set_of_str h
  refine str_of_drop hdrop ?_ (by simp)
  intro b hb
  exact (str buf p).nonzero b (by rw [h]; exact List.mem_append_left _ hb)

/-- The part behind it. -/
theorem str_set_back (h : (str buf p).bytes = t ++ c :: rest) :
    (str (buf.set (p + t.length) 0) (p + t.length + 1)).bytes = rest := by
  obtain ⟨tail, hdrop, htail⟩ := drop_set_of_str h
  have hback : (buf.set (p + t.length) 0).drop (p + t.length + 1) = rest ++ tail := by
    rw [Nat.add_assoc, ← List.drop_drop, hdrop, ← List.drop_drop, List.drop_left]
    rfl
  refine str_of_drop hback ?_ htail
  intro b hb
  exact (str buf p).nonzero b (by rw [h]; simp [hb])

end Strings

/-! ## What a call does -/

section Calls

variable {buf : List Byte} {s state : Option Nat} {delim : CString}

theorem scan_end {p : Nat} (h : ∀ c ∈ (str buf p).bytes, strchr delim c = false) :
    scan buf delim p = p + (str buf p).bytes.length := by
  have hall : ∀ c ∈ (str buf p).bytes, (!strchr delim c) = true := by
    intro c hc
    rw [h c hc]
    rfl
  rw [scan, List.takeWhile_eq_self_iff.mpr hall]

theorem scan_cut {p : Nat} {t rest : List Byte} {c : Byte}
    (h : (str buf p).bytes = t ++ c :: rest) (ht : ∀ c ∈ t, strchr delim c = false)
    (hc : strchr delim c = true) : scan buf delim p = p + t.length := by
  have hall : ∀ c ∈ t, (!strchr delim c) = true := by
    intro c hc
    rw [ht c hc]
    rfl
  rw [scan, h, List.takeWhile_append_of_pos hall, List.takeWhile_cons_of_neg (by simp [hc]),
    List.append_nil]

/-- There is no token without a string, or when the string is empty. -/
theorem lwStrtokR_null (h : ∀ p ∈ s.or state, (str buf p).bytes = []) :
    lwStrtokR buf s delim state = (buf, none, state) := by
  unfold lwStrtokR
  cases hs : s.or state with
  | none => rfl
  | some p =>
      have hempty := h p hs
      have hend : scan buf delim p = p := by
        rw [scan_end (by simp [hempty]), hempty]
        rfl
      have hzero := getD_str_end buf p
      rw [hempty, List.length_nil, Nat.add_zero] at hzero
      simp only [hend]
      rw [if_pos hzero, if_pos trivial]

/-- The last token is what is left. -/
theorem lwStrtokR_last {p : Nat} (hs : s.or state = some p) (hne : (str buf p).bytes ≠ [])
    (h : ∀ c ∈ (str buf p).bytes, strchr delim c = false) :
    lwStrtokR buf s delim state = (buf, some p, none) := by
  have hlen := List.length_pos_iff.mpr hne
  simp only [lwStrtokR, hs, scan_end h]
  rw [if_pos (getD_str_end buf p), if_neg (by omega)]

/-- Any other token is cut off by a NUL over the first delimiter. -/
theorem lwStrtokR_cut {p : Nat} {t rest : List Byte} {c : Byte} (hs : s.or state = some p)
    (h : (str buf p).bytes = t ++ c :: rest) (ht : ∀ c ∈ t, strchr delim c = false)
    (hc : strchr delim c = true) :
    lwStrtokR buf s delim state =
      (buf.set (p + t.length) 0, some p, some (p + t.length + 1)) := by
  obtain ⟨tail, hdrop, _⟩ := drop_eq_str buf p
  have hget : buf.getD (p + t.length) 0 = c := by
    rw [h, List.append_assoc] at hdrop
    rw [getD_of_drop hdrop]
    rfl
  have hne : c ≠ 0 := (str buf p).nonzero c (by simp [h])
  simp only [lwStrtokR, hs, scan_cut h ht hc]
  rw [if_neg (by rw [hget]; exact hne)]

/-- These are the three ways through `lw_strtok_r`. -/
theorem lwStrtokR_cases (buf : List Byte) (s : Option Nat) (delim : CString)
    (state : Option Nat) :
    ((∀ p ∈ s.or state, (str buf p).bytes = []) ∧
      lwStrtokR buf s delim state = (buf, none, state)) ∨
    (∃ p, s.or state = some p ∧ (str buf p).bytes ≠ [] ∧
      (∀ c ∈ (str buf p).bytes, strchr delim c = false) ∧
      lwStrtokR buf s delim state = (buf, some p, none)) ∨
    ∃ p t c rest, s.or state = some p ∧ (str buf p).bytes = t ++ c :: rest ∧
      (∀ c ∈ t, strchr delim c = false) ∧ strchr delim c = true ∧
      lwStrtokR buf s delim state =
        (buf.set (p + t.length) 0, some p, some (p + t.length + 1)) := by
  cases hs : s.or state with
  | none =>
      left
      exact ⟨by simp, lwStrtokR_null (by simp [hs])⟩
  | some p =>
      rcases cut_cases (strchr delim) (str buf p).bytes with h | ⟨hne, h⟩ | ⟨t, c, rest, h, ht, hc⟩
      · left
        have hempty : ∀ q ∈ some p, (str buf q).bytes = [] := by
          intro q hq
          obtain rfl := Option.some.inj hq
          exact h
        exact ⟨hempty, lwStrtokR_null (by rw [hs]; exact hempty)⟩
      · right; left
        exact ⟨p, rfl, hne, h, lwStrtokR_last hs hne h⟩
      · right; right
        exact ⟨p, t, c, rest, rfl, h, ht, hc, lwStrtokR_cut hs h ht hc⟩

@[simp] theorem length_lwStrtokR (buf : List Byte) (s : Option Nat) (delim : CString)
    (state : Option Nat) : (lwStrtokR buf s delim state).1.length = buf.length := by
  rcases lwStrtokR_cases buf s delim state with
    ⟨_, h⟩ | ⟨_, _, _, _, h⟩ | ⟨_, _, _, _, _, _, _, _, h⟩
  · rw [h]
  · rw [h]
  · rw [h, List.length_set]

/-- Nothing is written behind the string that is cut. -/
theorem lwStrtokR_drop {p q : Nat} (hs : s.or state = some p)
    (hq : p + (str buf p).bytes.length ≤ q) :
    (lwStrtokR buf s delim state).1.drop q = buf.drop q := by
  rcases lwStrtokR_cases buf s delim state with
    ⟨_, h⟩ | ⟨_, _, _, _, h⟩ | ⟨p', t, c, rest, hp', ht, _, _, h⟩
  · rw [h]
  · rw [h]
  · obtain rfl : p = p' := Option.some.inj (hs.symm.trans hp')
    rw [ht, List.length_append, List.length_cons] at hq
    rw [h]
    exact List.drop_set_of_lt (by omega)

/-- What is left to read under a `*state`. -/
def left (buf : List Byte) (state : Option Nat) : Nat :=
  match state with
  | none => 0
  | some p => buf.length + 1 - p

/-- The next token leaves less to read. -/
theorem left_lwStrtokR {buf' : List Byte} {p : Nat} {state' : Option Nat}
    (h : lwStrtokR buf none delim state = (buf', some p, state')) :
    left buf' state' < left buf state := by
  rcases lwStrtokR_cases buf none delim state with
    ⟨_, hc⟩ | ⟨q, hq, hne, _, hc⟩ | ⟨q, t, c, rest, hq, ht, _, _, hc⟩
  · rw [hc] at h
    cases h
  · rw [hc] at h
    cases h
    obtain ⟨b, l, hbl⟩ := List.exists_cons_of_ne_nil hne
    have hlt := lt_length_of_str (t := []) hbl
    rw [Option.none_or] at hq
    subst hq
    simp only [left, List.length_nil] at hlt ⊢
    omega
  · rw [hc] at h
    cases h
    have hlt := lt_length_of_str ht
    rw [Option.none_or] at hq
    subst hq
    simp only [left, List.length_set]
    omega

end Calls

/-! ## Nothing but NULs is written -/

/-- Where a buffer has changed there is a NUL now. -/
def OnlyNuls (buf buf' : List Byte) : Prop :=
  ∀ i, buf'.getD i 0 = buf.getD i 0 ∨ buf'.getD i 0 = 0

theorem OnlyNuls.refl (buf : List Byte) : OnlyNuls buf buf := fun _ => .inl rfl

theorem OnlyNuls.trans {buf buf' buf'' : List Byte} (h : OnlyNuls buf buf')
    (h' : OnlyNuls buf' buf'') : OnlyNuls buf buf'' := by
  intro i
  rcases h' i with hi | hi
  · rw [hi]
    exact h i
  · exact .inr hi

theorem onlyNuls_set (buf : List Byte) (i : Nat) : OnlyNuls buf (buf.set i 0) := by
  intro j
  simp only [List.getD_eq_getElem?_getD, List.getElem?_set]
  split
  · right
    split <;> rfl
  · exact .inl rfl

/-- A byte that has become NUL stays changed. -/
theorem OnlyNuls.ne_of_set {buf buf' : List Byte} {p : Nat} {t rest : List Byte} {c : Byte}
    (h : (str buf p).bytes = t ++ c :: rest)
    (hcut : OnlyNuls (buf.set (p + t.length) 0) buf') : buf' ≠ buf := by
  intro heq
  obtain ⟨tail, hdrop, _⟩ := drop_eq_str buf p
  rw [h, List.append_assoc] at hdrop
  have hold : buf.getD (p + t.length) 0 = c := by
    rw [getD_of_drop hdrop]
    rfl
  obtain ⟨tail', hdrop', _⟩ := drop_set_of_str h
  have hset : (buf.set (p + t.length) 0).getD (p + t.length) 0 = 0 := by
    rw [getD_of_drop hdrop']
    rfl
  have hne : c ≠ 0 := (str buf p).nonzero c (by simp [h])
  rcases hcut (p + t.length) with hi | hi
  · rw [hset, heq, hold] at hi
    exact hne hi
  · rw [heq, hold] at hi
    exact hne hi

theorem onlyNuls_lwStrtokR (buf : List Byte) (s : Option Nat) (delim : CString)
    (state : Option Nat) : OnlyNuls buf (lwStrtokR buf s delim state).1 := by
  rcases lwStrtokR_cases buf s delim state with
    ⟨_, h⟩ | ⟨_, _, _, _, h⟩ | ⟨_, _, _, _, _, _, _, _, h⟩
  · rw [h]
    exact OnlyNuls.refl buf
  · rw [h]
    exact OnlyNuls.refl buf
  · rw [h]
    exact onlyNuls_set buf _

/-! ## The tokenizer of strings -/

/--
**The calls on a buffer are the calls on its strings.**

What `NanomsgDemo.Http.lwStrtokR` says of the strings at `s` and `*state` is what stands
at the token and at `*state` afterwards.
-/
theorem lwStrtokR_eq {delim : CString} {c : Char} (hdelim : delim.bytes = [chr c])
    (buf : List Byte) (s state : Option Nat) :
    let r := lwStrtokR buf s delim state
    Http.lwStrtokR (s.map fun p => (str buf p).bytes) c (state.map fun p => (str buf p).bytes) =
      (r.2.1.map fun p => (str r.1 p).bytes, r.2.2.map fun p => (str r.1 p).bytes) := by
  have hor : ((s.map fun p => (str buf p).bytes).or (state.map fun p => (str buf p).bytes)) =
      (s.or state).map fun p => (str buf p).bytes := by
    cases s <;> rfl
  have hchr : ∀ {b : Byte}, strchr delim b = false ↔ b ≠ chr c := by simp [strchr, hdelim]
  rcases lwStrtokR_cases buf s delim state with
    ⟨hnull, h⟩ | ⟨p, hp, hne, hplain, h⟩ | ⟨p, t, b, rest, hp, ht, hplain, hb, h⟩
  · rw [h]
    cases hs : s.or state with
    | none =>
        rw [hs] at hor
        simp only [Http.lwStrtokR, hor]
        rfl
    | some p =>
        rw [hs] at hor
        simp only [Http.lwStrtokR, hor, Option.map_some, hnull p hs]
        rfl
  · rw [h]
    rw [hp] at hor
    exact Http.lwStrtokR_end hor hne fun hmem => hchr.mp (hplain _ hmem) rfl
  · obtain rfl : b = chr c := by simpa [strchr, hdelim] using hb
    rw [h]
    rw [hp, Option.map_some, ht] at hor
    simp only [Option.map_some, str_set_front ht, str_set_back ht]
    exact Http.lwStrtokR_cut hor fun hmem => hchr.mp (hplain _ hmem) rfl

/-! ## `split` -/

/-- The loop of `split`, from a `p` that is not null. -/
def splitLoop (buf : List Byte) (pattern : CString) (s : List CString) (p : Nat)
    (p1 : Option Nat) : List Byte × List CString :=
  match _ : lwStrtokR buf none pattern p1 with
  | (buf', none, _) => (buf', s ++ [str buf p])
  | (buf', some p', p1') => splitLoop buf' pattern (s ++ [str buf p]) p' p1'
termination_by left buf p1
decreasing_by exact left_lwStrtokR ‹_›

/-- `split`: the buffer afterwards and the vector. -/
def split (buf : List Byte) (pattern : CString) : List Byte × List CString :=
  match lwStrtokR buf (some 0) pattern none with
  | (buf', none, _) => (buf', [])
  | (buf', some p, p1) => splitLoop buf' pattern [] p p1

/-- One round of the loop. -/
theorem splitLoop_step (buf : List Byte) (pattern : CString) (s : List CString) (p : Nat)
    (p1 : Option Nat) :
    splitLoop buf pattern s p p1 =
      match lwStrtokR buf none pattern p1 with
      | (buf', none, _) => (buf', s ++ [str buf p])
      | (buf', some p', p1') => splitLoop buf' pattern (s ++ [str buf p]) p' p1' := by
  rw [splitLoop]
  split
  · rename_i h
    rw [h]
  · rename_i h
    rw [h]

theorem splitLoop_last {buf buf' : List Byte} {pattern : CString} {s : List CString} {p : Nat}
    {p1 p1' : Option Nat} (h : lwStrtokR buf none pattern p1 = (buf', none, p1')) :
    splitLoop buf pattern s p p1 = (buf', s ++ [str buf p]) := by
  rw [splitLoop_step, h]

theorem splitLoop_next {buf buf' : List Byte} {pattern : CString} {s : List CString} {p p' : Nat}
    {p1 p1' : Option Nat} (h : lwStrtokR buf none pattern p1 = (buf', some p', p1')) :
    splitLoop buf pattern s p p1 = splitLoop buf' pattern (s ++ [str buf p]) p' p1' := by
  rw [splitLoop_step, h]

/-- The tokens that are left under a `*state`. -/
def remaining (buf : List Byte) (delim : CString) : Option Nat → List (List Byte)
  | none => []
  | some p => tokens (strchr delim) (str buf p).bytes

/-- No token is returned when none is left. -/
theorem remaining_null {buf buf' : List Byte} {delim : CString} {s state state' : Option Nat}
    (h : lwStrtokR buf s delim state = (buf', none, state')) :
    remaining buf delim (s.or state) = [] := by
  rcases lwStrtokR_cases buf s delim state with
    ⟨hnull, _⟩ | ⟨_, _, _, _, hc⟩ | ⟨_, _, _, _, _, _, _, _, hc⟩
  · cases hs : s.or state with
    | none => rfl
    | some p => rw [remaining, hnull p hs, tokens_nil]
  · rw [hc] at h
    cases h
  · rw [hc] at h
    cases h

/-- The token that is returned is the first of those that are left. -/
theorem remaining_token {buf buf' : List Byte} {delim : CString} {s state state' : Option Nat}
    {p : Nat} (h : lwStrtokR buf s delim state = (buf', some p, state')) :
    remaining buf delim (s.or state) = (str buf' p).bytes :: remaining buf' delim state' := by
  rcases lwStrtokR_cases buf s delim state with
    ⟨_, hc⟩ | ⟨q, hq, hne, hplain, hc⟩ | ⟨q, t, c, rest, hq, ht, hplain, hb, hc⟩
  · rw [hc] at h
    cases h
  · rw [hc] at h
    cases h
    rw [hq]
    exact tokens_end hne hplain
  · rw [hc] at h
    cases h
    rw [hq, remaining, ht, tokens_cut hplain hb, remaining, str_set_front ht, str_set_back ht]

/-- The loop appends the token it has and those that are left. -/
theorem splitLoop_tokens (buf : List Byte) (pattern : CString) (s : List CString) (p : Nat)
    (p1 : Option Nat) :
    (splitLoop buf pattern s p p1).2.map CString.bytes =
      s.map CString.bytes ++ (str buf p).bytes :: remaining buf pattern p1 := by
  induction hn : left buf p1 using Nat.strongRecOn generalizing buf s p p1 with
  | ind n ih =>
      subst hn
      cases hcall : lwStrtokR buf none pattern p1 with
      | mk buf' r =>
          obtain ⟨p', p1'⟩ := r
          cases p' with
          | none =>
              have hnone := remaining_null hcall
              rw [Option.none_or] at hnone
              rw [splitLoop_last hcall, hnone]
              simp
          | some p' =>
              have hsome := remaining_token hcall
              rw [Option.none_or] at hsome
              rw [splitLoop_next hcall, ih _ (left_lwStrtokR hcall) buf' _ p' p1' rfl, hsome]
              simp

theorem split_tokens (s pattern : CString) :
    (split s.bytes pattern).2.map CString.bytes = tokens (strchr pattern) s.bytes := by
  have hleft : remaining s.bytes pattern (some 0) = tokens (strchr pattern) s.bytes := by
    rw [remaining, str_zero]
  unfold split
  cases hcall : lwStrtokR s.bytes (some 0) pattern none with
  | mk buf' r =>
      obtain ⟨p, p1⟩ := r
      cases p with
      | none =>
          have hnone := remaining_null hcall
          rw [Option.some_or, hleft] at hnone
          rw [hnone]
          rfl
      | some p =>
          have hsome := remaining_token hcall
          rw [Option.some_or, hleft] at hsome
          dsimp only
          rw [splitLoop_tokens, hsome]
          rfl

/--
**`split` returns the segments of its string, but for an empty one at the end.**

None of them contains a delimiter, and with the delimiters of the string between them
they are the string. That the loop ends is part of its definition.
-/
theorem split_segments (s pattern : CString) :
    let v := (split s.bytes pattern).2.map CString.bytes
    let segments := s.bytes.splitOnP (· ∈ pattern.bytes)
    (v = segments ∧ v.getLast? ≠ some [] ∨ segments = v ++ [[]]) ∧
    (∀ token ∈ v, ∀ c ∈ token, c ∉ pattern.bytes) ∧
    interleave v (s.bytes.filter (· ∈ pattern.bytes)) = s.bytes := by
  have hv := split_tokens s pattern
  dsimp only
  rw [hv]
  refine ⟨tokens_or (strchr pattern) s.bytes, ?_, interleave_tokens (strchr pattern) s.bytes⟩
  intro token ht c hc
  have hfalse := not_of_mem_tokens ht c hc
  simpa [strchr] using hfalse

end NanomsgDemo.Http.InPlace

import Mathlib.Data.List.AList
import NanomsgDemo.Http.InPlace

/-!
# The two query decoders

`KVQueryUrlValue::parse` and `split_url_pragma_data` of `libutils/lw_util.cpp`, which
cut a query into segments at `&` and each segment into a key and a value at `=`, both
in the buffer that was passed.

What they make of a query depends on its segments alone. `parse` stores the pairs in
front of the first segment that is not one (`parse_eq`) and `split_url_pragma_data` is
defined exactly when there is no such segment (`splitUrlPragmaData_eq`).
-/

namespace NanomsgDemo.Http

open Net (Byte CString chr)
open Tokens

/-! ## Segments -/

/-- The segments of a query, but for an empty one at its end. -/
def segments (data : CString) : List (List Byte) := tokens (· = chr '&') data.bytes

/-- `k=v` with a value. -/
def IsPair (segment : List Byte) : Prop :=
  ∃ k v, segment = k ++ chr '=' :: v ∧ chr '=' ∉ k ∧ v ≠ []

/-- With a first `=` there is a pair if there is something behind it. -/
theorem isPair_cut_iff {k v : List Byte} (hk : chr '=' ∉ k) :
    IsPair (k ++ chr '=' :: v) ↔ v ≠ [] := by
  constructor
  · intro ⟨k', v', heq, _, hv'⟩ hempty
    rw [hempty] at heq
    have hparts := (List.append_cons_inj_of_notMem hk List.not_mem_nil).mp heq
    exact hv' hparts.2.2.symm
  · intro hv
    exact ⟨k, v, rfl, hk, hv⟩

/-- There is no token where nothing is left. -/
theorem lwStrtokR_nil {s state : Option (List Byte)} {delim : Char} (hs : s.or state = some []) :
    lwStrtokR s delim state = (none, state) := by
  simp only [lwStrtokR, hs]
  rfl

/-- The value ends at the next `=`. -/
theorem pair_cut {k v : List Byte} (hk : chr '=' ∉ k) (hv : v ≠ []) :
    KVQueryUrlValue.pair (k ++ chr '=' :: v) =
      some (CString.ofBuffer k, CString.ofBuffer (v.takeWhile (· ≠ chr '='))) := by
  have hfirst : lwStrtokR (some (k ++ chr '=' :: v)) '=' none = (some k, some v) :=
    lwStrtokR_cut rfl hk
  have hnext : ∃ q1, lwStrtokR none '=' (some v) = (some (v.takeWhile (· ≠ chr '=')), q1) := by
    simp only [lwStrtokR, Option.none_or]
    split
    · rename_i hdrop
      have hall := List.takeWhile_append_dropWhile (p := fun c => decide (c ≠ chr '=')) (l := v)
      rw [hdrop, List.append_nil] at hall
      rw [hall, if_neg (by simpa using hv)]
      exact ⟨_, rfl⟩
    · exact ⟨_, rfl⟩
  obtain ⟨q1, hq1⟩ := hnext
  simp only [KVQueryUrlValue.pair, hfirst, hq1]

/-- A segment without a `=`, or with nothing behind the first one, is no pair. -/
theorem pair_eq_none_of_not {segment : List Byte} (h : ¬IsPair segment) :
    KVQueryUrlValue.pair segment = none := by
  rcases cut_cases_one (chr '=') segment with rfl | ⟨hne, hplain⟩ | ⟨k, v, rfl, hk⟩
  · have hfirst : lwStrtokR (some []) '=' none = (none, none) := lwStrtokR_nil rfl
    simp only [KVQueryUrlValue.pair, hfirst]
  · have hfirst : lwStrtokR (some segment) '=' none = (some segment, none) :=
      lwStrtokR_end rfl hne hplain
    simp only [KVQueryUrlValue.pair, hfirst]
    rfl
  · have hv : v = [] := by
      by_contra hv
      exact h ((isPair_cut_iff hk).mpr hv)
    subst hv
    have hfirst : lwStrtokR (some (k ++ [chr '='])) '=' none = (some k, some []) :=
      lwStrtokR_cut rfl hk
    have hnext : lwStrtokR none '=' (some []) = (none, some []) := lwStrtokR_nil rfl
    simp only [KVQueryUrlValue.pair, hfirst, hnext]

/-- What the loop of `parse` takes for a pair. -/
theorem pair_ne_none_iff {segment : List Byte} :
    KVQueryUrlValue.pair segment ≠ none ↔ IsPair segment := by
  constructor
  · intro h
    by_contra hnot
    exact h (pair_eq_none_of_not hnot)
  · intro ⟨k, v, heq, hk, hv⟩
    rw [heq, pair_cut hk hv]
    simp

instance (segment : List Byte) : Decidable (IsPair segment) :=
  decidable_of_iff _ pair_ne_none_iff

/-! ## `KVQueryUrlValue` -/

namespace KVQueryUrlValue

/-- `each`: the pairs that `func` is called with, one after another. -/
def each (kv : KVQueryUrlValue) : List (CString × CString) := kv.kv

/-- `reset`. -/
def reset (_ : KVQueryUrlValue) : KVQueryUrlValue := ⟨[]⟩

end KVQueryUrlValue

/-- The segments in `p0` and behind `p1`. -/
def segmentsLeft (p0 : List Byte) : Option (List Byte) → List (List Byte)
  | none => [p0]
  | some s => p0 :: tokens (· = chr '&') s

/-- A call finds the first of the segments that are left, if there is one. -/
theorem nextSegment_cases {s state : Option (List Byte)} {rest : List Byte}
    (hs : s.or state = some rest) :
    ((lwStrtokR s '&' state).1 = none ∧ tokens (· = chr '&') rest = []) ∨
    ∃ p0 p1, lwStrtokR s '&' state = (some p0, p1) ∧
      tokens (· = chr '&') rest = segmentsLeft p0 p1 := by
  rcases cut_cases_one (chr '&') rest with rfl | ⟨hne, hplain⟩ | ⟨t, rest', rfl, ht⟩
  · left
    rw [lwStrtokR_nil hs]
    exact ⟨rfl, tokens_nil⟩
  · right
    exact ⟨rest, none, lwStrtokR_end hs hne hplain, tokens_end_one hne hplain⟩
  · right
    exact ⟨t, some rest', lwStrtokR_cut hs ht, tokens_cut_one ht⟩

/-- Behind `p0` that is the next one. -/
theorem segmentsLeft_cases (p0 : List Byte) (p1 : Option (List Byte)) :
    ((lwStrtokR none '&' p1).1 = none ∧ segmentsLeft p0 p1 = [p0]) ∨
    ∃ p0' p1', lwStrtokR none '&' p1 = (some p0', p1') ∧
      segmentsLeft p0 p1 = p0 :: segmentsLeft p0' p1' := by
  cases p1 with
  | none => exact .inl ⟨rfl, rfl⟩
  | some s =>
      rcases nextSegment_cases (Option.none_or : none.or (some s) = some s) with
        ⟨hnone, hnil⟩ | ⟨p0', p1', hcall, hleft⟩
      · exact .inl ⟨hnone, congrArg (p0 :: ·) hnil⟩
      · exact .inr ⟨p0', p1', hcall, congrArg (p0 :: ·) hleft⟩

/-- What `parse` returns after these segments. -/
def parseResult (kv : List (CString × CString)) (segs : List (List Byte)) :
    KVQueryUrlValue × Int32 :=
  (⟨kv ++ leading KVQueryUrlValue.pair segs⟩, if ∀ seg ∈ segs, IsPair seg then 0 else -1)

theorem parseResult_none {kv : List (CString × CString)} {seg : List Byte}
    {segs : List (List Byte)} (h : KVQueryUrlValue.pair seg = none) :
    parseResult kv (seg :: segs) = (⟨kv⟩, -1) := by
  have hnot : ¬IsPair seg := fun hp => pair_ne_none_iff.mpr hp h
  have hall : ¬∀ s ∈ seg :: segs, IsPair s := fun hall => hnot (hall seg (by simp))
  rw [parseResult, leading_cons_none h, if_neg hall, List.append_nil]

theorem parseResult_some {kv : List (CString × CString)} {seg : List Byte}
    {segs : List (List Byte)} {pkv : CString × CString}
    (h : KVQueryUrlValue.pair seg = some pkv) :
    parseResult kv (seg :: segs) = parseResult (kv ++ [pkv]) segs := by
  have hpair : IsPair seg := pair_ne_none_iff.mp (by simp [h])
  simp only [parseResult, leading_cons_some h, List.forall_mem_cons, hpair, true_and,
    List.append_assoc, List.singleton_append]

theorem parseLoop_eq (kv : List (CString × CString)) (p0 : List Byte) (p1 : Option (List Byte)) :
    KVQueryUrlValue.parseLoop kv p0 p1 = parseResult kv (segmentsLeft p0 p1) := by
  induction hn : stateSize p1 using Nat.strongRecOn generalizing kv p0 p1 with
  | ind n ih =>
      subst hn
      cases hp : KVQueryUrlValue.pair p0 with
      | none =>
          obtain ⟨segs, hsegs⟩ : ∃ segs, segmentsLeft p0 p1 = p0 :: segs := by
            cases p1 <;> exact ⟨_, rfl⟩
          rw [hsegs, parseResult_none hp, KVQueryUrlValue.parseLoop, hp]
      | some pkv =>
          rcases segmentsLeft_cases p0 p1 with ⟨hnext, hleft⟩ | ⟨p0', p1', hnext, hleft⟩
          · rw [KVQueryUrlValue.parseLoop_last hp (Prod.ext hnext rfl), hleft, parseResult_some hp]
            simp [parseResult, leading]
          · rw [KVQueryUrlValue.parseLoop_next hp hnext,
              ih _ (stateSize_lwStrtokR hnext) (kv ++ [pkv]) p0' p1' rfl, hleft,
              parseResult_some hp]

/-- **`parse` stores the pairs in front of the first segment that is not one.** -/
theorem parse_eq (data : CString) :
    KVQueryUrlValue.parse data =
      if segments data = [] then (⟨[]⟩, -1) else parseResult [] (segments data) := by
  unfold KVQueryUrlValue.parse
  rcases nextSegment_cases (Option.some_or : (some data.bytes).or none = some data.bytes) with
    ⟨hnone, hsegs⟩ | ⟨p0, p1, hcall, hsegs⟩
  · change segments data = [] at hsegs
    rw [if_pos hsegs]
    split
    · rfl
    · rename_i heq
      rw [heq] at hnone
      cases hnone
  · change segments data = segmentsLeft p0 p1 at hsegs
    have hne : segments data ≠ [] := by
      rw [hsegs]
      cases p1 <;> exact List.cons_ne_nil _ _
    rw [if_neg hne, hcall, hsegs]
    exact parseLoop_eq [] p0 p1

theorem parse_kv_eq (data : CString) :
    (KVQueryUrlValue.parse data).1.kv = leading KVQueryUrlValue.pair (segments data) := by
  rw [parse_eq]
  by_cases hnil : segments data = []
  · rw [if_pos hnil, hnil]
    rfl
  · rw [if_neg hnil]
    rfl

/-! ## `parse` in place -/

namespace InPlace

/-- The body of the loop of `parse`: the buffer, and the pair in `p0` if it is one. -/
def pair (buf : List Byte) (p0 : Nat) : List Byte × Option (CString × CString) :=
  match lwStrtokR buf (some p0) (CString.lit "=") none with
  | (buf', none, _) => (buf', none)
  | (buf', some q, q1) =>
      let k := str buf' q
      match lwStrtokR buf' none (CString.lit "=") q1 with
      | (buf'', none, _) => (buf'', none)
      | (buf'', some q, _) => (buf'', some (k, str buf'' q))

section Pair

variable {buf : List Byte} {p0 q : Nat} {k v : List Byte}

theorem strchr_lit_eq : strchr (CString.lit "=") = fun c => decide (c = chr '=') := by
  funext c
  have hlit : (CString.lit "=").bytes = [chr '='] := by decide
  simp [strchr, hlit]

theorem strchr_lit_amp : strchr (CString.lit "&") = fun c => decide (c = chr '&') := by
  funext c
  have hlit : (CString.lit "&").bytes = [chr '&'] := by decide
  simp [strchr, hlit]

/-- Without a `=` nothing is written, and there is no pair. -/
theorem pair_plain (h : chr '=' ∉ (str buf p0).bytes) : pair buf p0 = (buf, none) := by
  by_cases hne : (str buf p0).bytes = []
  · have hfirst : lwStrtokR buf (some p0) (CString.lit "=") none = (buf, none, none) :=
      lwStrtokR_null fun q hq => by
        rw [Option.some_or] at hq
        exact Option.some.inj hq ▸ hne
    simp only [pair, hfirst]
  · have hplain : ∀ c ∈ (str buf p0).bytes, strchr (CString.lit "=") c = false := by
      rw [strchr_lit_eq]
      exact forall_ne_iff.mpr h
    have hfirst : lwStrtokR buf (some p0) (CString.lit "=") none = (buf, some p0, none) :=
      lwStrtokR_last rfl hne hplain
    simp only [pair, hfirst]
    rfl

/-- With a `=` the first one is written over, and what is behind it is the value. -/
theorem pair_of_cut (h : (str buf p0).bytes = k ++ chr '=' :: v) (hk : chr '=' ∉ k) :
    pair buf p0 =
      let buf' := buf.set (p0 + k.length) 0
      let r := lwStrtokR buf' none (CString.lit "=") (some (p0 + k.length + 1))
      (r.1, r.2.1.map fun q => (str buf' p0, str r.1 q)) := by
  have hplain : ∀ c ∈ k, strchr (CString.lit "=") c = false := by
    rw [strchr_lit_eq]
    exact forall_ne_iff.mpr hk
  have hfirst : lwStrtokR buf (some p0) (CString.lit "=") none =
      (buf.set (p0 + k.length) 0, some p0, some (p0 + k.length + 1)) :=
    lwStrtokR_cut rfl h hplain (by simp [strchr_lit_eq])
  simp only [pair, hfirst]
  split
  · rename_i hnext
    rw [hnext]
    rfl
  · rename_i hnext
    rw [hnext]
    rfl

/-- A string without a `=`, or with a first one. -/
theorem plain_or_cut (buf : List Byte) (p0 : Nat) :
    chr '=' ∉ (str buf p0).bytes ∨
      ∃ k v, (str buf p0).bytes = k ++ chr '=' :: v ∧ chr '=' ∉ k := by
  by_cases h : chr '=' ∈ (str buf p0).bytes
  · right
    obtain ⟨k, v, heq, hk⟩ := List.eq_append_cons_of_mem h
    exact ⟨k, v, heq, hk⟩
  · exact .inl h

theorem length_pair (buf : List Byte) (p0 : Nat) : (pair buf p0).1.length = buf.length := by
  rcases plain_or_cut buf p0 with h | ⟨k, v, h, hk⟩
  · rw [pair_plain h]
  · rw [pair_of_cut h hk, length_lwStrtokR, List.length_set]

/-- Nothing is written behind the segment. -/
theorem pair_drop (hq : p0 + (str buf p0).bytes.length ≤ q) :
    (pair buf p0).1.drop q = buf.drop q := by
  rcases plain_or_cut buf p0 with h | ⟨k, v, h, hk⟩
  · rw [pair_plain h]
  · rw [h, List.length_append, List.length_cons] at hq
    have hback := str_set_back h
    have hnext : p0 + k.length + 1 + (str (buf.set (p0 + k.length) 0)
        (p0 + k.length + 1)).bytes.length ≤ q := by
      rw [hback]
      omega
    rw [pair_of_cut h hk]
    exact (lwStrtokR_drop rfl hnext).trans (List.drop_set_of_lt (by omega))

theorem onlyNuls_pair (buf : List Byte) (p0 : Nat) : OnlyNuls buf (pair buf p0).1 := by
  rcases plain_or_cut buf p0 with h | ⟨k, v, h, hk⟩
  · rw [pair_plain h]
    exact OnlyNuls.refl buf
  · rw [pair_of_cut h hk]
    exact (onlyNuls_set buf _).trans (onlyNuls_lwStrtokR _ _ _ _)

/-- The pair is that of the string at `p0`. -/
theorem pair_eq (buf : List Byte) (p0 : Nat) :
    (pair buf p0).2 = KVQueryUrlValue.pair (str buf p0).bytes := by
  have hlit : (CString.lit "=").bytes = [chr '='] := by decide
  have hfirst := lwStrtokR_eq hlit buf (some p0) none
  unfold pair KVQueryUrlValue.pair
  rw [Option.map_some, Option.map_none] at hfirst
  rw [hfirst]
  cases hcall : lwStrtokR buf (some p0) (CString.lit "=") none with
  | mk buf' r =>
      obtain ⟨q, q1⟩ := r
      cases q with
      | none => rfl
      | some q =>
          have hnext := lwStrtokR_eq hlit buf' none q1
          rw [Option.map_none] at hnext
          dsimp only [Option.map_some]
          rw [hnext]
          cases hcall' : lwStrtokR buf' none (CString.lit "=") q1 with
          | mk buf'' r =>
              obtain ⟨q', q1'⟩ := r
              cases q' with
              | none => rfl
              | some q' => simp

end Pair

/-- The loop of `parse`, from the pairs it has, a `p0` that is not null, and `p1`. -/
def parseLoop (buf : List Byte) (kv : List (CString × CString)) (p0 : Nat) (p1 : Option Nat) :
    List Byte × KVQueryUrlValue × Int32 :=
  match (pair buf p0).2 with
  | none => ((pair buf p0).1, ⟨kv⟩, -1)
  | some pkv =>
      match _ : lwStrtokR (pair buf p0).1 none (CString.lit "&") p1 with
      | (buf', none, _) => (buf', ⟨kv ++ [pkv]⟩, 0)
      | (buf', some p0', p1') => parseLoop buf' (kv ++ [pkv]) p0' p1'
termination_by left buf p1
decreasing_by
  have hless := left_lwStrtokR ‹_›
  have hlen : left (pair buf p0).1 p1 = left buf p1 := by
    simp only [left, length_pair]
  rw [← hlen]
  exact hless

/-- `KVQueryUrlValue::parse` of an object, on the buffer of `data`. -/
def parse (self : KVQueryUrlValue) (buf : List Byte) : List Byte × KVQueryUrlValue × Int32 :=
  let self := self.reset
  match lwStrtokR buf (some 0) (CString.lit "&") none with
  | (buf', none, _) => (buf', self, -1)
  | (buf', some p0, p1) => parseLoop buf' self.kv p0 p1

/-! ## What `parse` does in place -/

section Parse

variable {buf buf' : List Byte} {kv : List (CString × CString)} {p0 p0' : Nat}
  {p1 p1' : Option Nat} {pkv : CString × CString}

/-- One round of the loop. -/
theorem parseLoop_step (buf : List Byte) (kv : List (CString × CString)) (p0 : Nat)
    (p1 : Option Nat) :
    parseLoop buf kv p0 p1 =
      match (pair buf p0).2 with
      | none => ((pair buf p0).1, ⟨kv⟩, -1)
      | some pkv =>
          match lwStrtokR (pair buf p0).1 none (CString.lit "&") p1 with
          | (buf', none, _) => (buf', ⟨kv ++ [pkv]⟩, 0)
          | (buf', some p0', p1') => parseLoop buf' (kv ++ [pkv]) p0' p1' := by
  rw [parseLoop]
  split
  · rfl
  · split
    · rename_i h
      rw [h]
    · rename_i h
      rw [h]

theorem parseLoop_none (hp : (pair buf p0).2 = none) :
    parseLoop buf kv p0 p1 = ((pair buf p0).1, ⟨kv⟩, -1) := by
  rw [parseLoop_step, hp]

theorem parseLoop_last (hp : (pair buf p0).2 = some pkv)
    (hn : lwStrtokR (pair buf p0).1 none (CString.lit "&") p1 = (buf', none, p1')) :
    parseLoop buf kv p0 p1 = (buf', ⟨kv ++ [pkv]⟩, 0) := by
  rw [parseLoop_step, hp, hn]

theorem parseLoop_next (hp : (pair buf p0).2 = some pkv)
    (hn : lwStrtokR (pair buf p0).1 none (CString.lit "&") p1 = (buf', some p0', p1')) :
    parseLoop buf kv p0 p1 = parseLoop buf' (kv ++ [pkv]) p0' p1' := by
  rw [parseLoop_step, hp, hn]

/-- A round of the loop leaves less to read. -/
theorem left_next
    (hn : lwStrtokR (pair buf p0).1 none (CString.lit "&") p1 = (buf', some p0', p1')) :
    left buf' p1' < left buf p1 := by
  have hless := left_lwStrtokR hn
  simp only [left, length_pair] at hless ⊢
  exact hless

/-- The three ways through a round. -/
theorem parseLoop_cases (buf : List Byte) (p0 : Nat) (p1 : Option Nat) :
    (pair buf p0).2 = none ∨
    (∃ pkv buf' p1', (pair buf p0).2 = some pkv ∧
      lwStrtokR (pair buf p0).1 none (CString.lit "&") p1 = (buf', none, p1')) ∨
    ∃ pkv buf' p0' p1', (pair buf p0).2 = some pkv ∧
      lwStrtokR (pair buf p0).1 none (CString.lit "&") p1 = (buf', some p0', p1') := by
  cases hp : (pair buf p0).2 with
  | none => exact .inl rfl
  | some pkv =>
      right
      cases hn : lwStrtokR (pair buf p0).1 none (CString.lit "&") p1 with
      | mk buf' r =>
          obtain ⟨p0', p1'⟩ := r
          cases p0' with
          | none => exact .inl ⟨pkv, buf', p1', rfl, rfl⟩
          | some p0' => exact .inr ⟨pkv, buf', p0', p1', rfl, rfl⟩

/-- A token ends in front of what is left. -/
theorem lwStrtokR_apart {delim : CString} {s state state' : Option Nat} {p : Nat}
    (h : lwStrtokR buf s delim state = (buf', some p, state')) :
    ∀ q ∈ state', p + (str buf' p).bytes.length < q := by
  rcases lwStrtokR_cases buf s delim state with
    ⟨_, hc⟩ | ⟨_, _, _, _, hc⟩ | ⟨p', t, c, rest, _, ht, _, _, hc⟩
  · rw [hc] at h
    cases h
  · rw [hc] at h
    cases h
    simp
  · rw [hc] at h
    cases h
    intro q hq
    obtain rfl := Option.mem_some_iff.mp hq
    rw [str_set_front ht]
    omega

/--
The loop in place does what the loop on strings does.

The segment in `p0` ends in front of `p1`, so that cutting it into a key and a value
leaves the rest of the query as it was.
-/
theorem parseLoop_refines (buf : List Byte) (kv : List (CString × CString)) (p0 : Nat)
    (p1 : Option Nat) (hapart : ∀ q ∈ p1, p0 + (str buf p0).bytes.length < q) :
    (parseLoop buf kv p0 p1).2 =
      KVQueryUrlValue.parseLoop kv (str buf p0).bytes (p1.map fun p => (str buf p).bytes) := by
  induction hn : left buf p1 using Nat.strongRecOn generalizing buf kv p0 p1 with
  | ind n ih =>
      subst hn
      have hlit : (CString.lit "&").bytes = [chr '&'] := by decide
      have hpair := pair_eq buf p0
      have hrest : (p1.map fun p => (str (pair buf p0).1 p).bytes) =
          p1.map fun p => (str buf p).bytes := by
        refine Option.map_congr fun q hq => ?_
        rw [str_bytes, str_bytes, pair_drop (Nat.le_of_lt (hapart q hq))]
      have hcall := lwStrtokR_eq hlit (pair buf p0).1 none p1
      rw [Option.map_none, hrest] at hcall
      rcases parseLoop_cases buf p0 p1 with
        hp | ⟨pkv, buf', p1', hp, hnext⟩ | ⟨pkv, buf', p0', p1', hp, hnext⟩
      · rw [parseLoop_none hp, KVQueryUrlValue.parseLoop, ← hpair, hp]
      · simp only [hnext, Option.map_none] at hcall
        rw [parseLoop_last hp hnext, KVQueryUrlValue.parseLoop_last (hpair ▸ hp) hcall]
      · simp only [hnext, Option.map_some] at hcall
        rw [parseLoop_next hp hnext, KVQueryUrlValue.parseLoop_next (hpair ▸ hp) hcall]
        exact ih _ (left_next hnext) buf' _ p0' p1' (lwStrtokR_apart hnext) rfl

/-- **`parse` in place is `parse` of the string, whatever the object held before.** -/
theorem parse_refines (self : KVQueryUrlValue) (data : CString) :
    (parse self data.bytes).2 = KVQueryUrlValue.parse data := by
  have hlit : (CString.lit "&").bytes = [chr '&'] := by decide
  have hcall := lwStrtokR_eq hlit data.bytes (some 0) none
  rw [Option.map_some, Option.map_none, str_zero] at hcall
  unfold parse KVQueryUrlValue.parse
  rw [hcall]
  cases hfirst : lwStrtokR data.bytes (some 0) (CString.lit "&") none with
  | mk buf' r =>
      obtain ⟨p0, p1⟩ := r
      cases p0 with
      | none => rfl
      | some p0 => exact parseLoop_refines buf' [] p0 p1 (lwStrtokR_apart hfirst)

theorem onlyNuls_parseLoop (buf : List Byte) (kv : List (CString × CString)) (p0 : Nat)
    (p1 : Option Nat) : OnlyNuls buf (parseLoop buf kv p0 p1).1 := by
  induction hn : left buf p1 using Nat.strongRecOn generalizing buf kv p0 p1 with
  | ind n ih =>
      subst hn
      have hpair := onlyNuls_pair buf p0
      rcases parseLoop_cases buf p0 p1 with
        hp | ⟨pkv, buf', p1', hp, hnext⟩ | ⟨pkv, buf', p0', p1', hp, hnext⟩
      · rw [parseLoop_none hp]
        exact hpair
      · have hcall := onlyNuls_lwStrtokR (pair buf p0).1 none (CString.lit "&") p1
        rw [hnext] at hcall
        rw [parseLoop_last hp hnext]
        exact hpair.trans hcall
      · have hcall := onlyNuls_lwStrtokR (pair buf p0).1 none (CString.lit "&") p1
        rw [hnext] at hcall
        rw [parseLoop_next hp hnext]
        exact (hpair.trans hcall).trans (ih _ (left_next hnext) buf' _ p0' p1' rfl)

end Parse

/-! ## `split_url_pragma_data` -/

/-- `std::unordered_map<std::string, std::string>`. -/
abbrev PragmaData := AList fun _ : CString => CString

/-- `k = q;` and `v = q;`, `none` where a string would be assigned from a null pointer. -/
def assignPair (buf : List Byte) (p0 : Nat) : Option (List Byte × CString × CString) :=
  match lwStrtokR buf (some p0) (CString.lit "=") none with
  | (_, none, _) => none
  | (buf', some q, q1) =>
      let k := str buf' q
      match lwStrtokR buf' none (CString.lit "=") q1 with
      | (_, none, _) => none
      | (buf'', some q, _) => some (buf'', k, str buf'' q)

/-- The assignments are defined for the segments that `parse` takes. -/
theorem assignPair_eq (buf : List Byte) (p0 : Nat) :
    assignPair buf p0 = (pair buf p0).2.map fun pkv => ((pair buf p0).1, pkv) := by
  unfold assignPair pair
  split
  · rfl
  · dsimp only
    split
    · rfl
    · rfl

theorem left_assignPair {buf buf' buf'' : List Byte} {p0 p0' : Nat} {p1 p1' : Option Nat}
    {pkv : CString × CString} (h : assignPair buf p0 = some (buf', pkv))
    (hn : lwStrtokR buf' none (CString.lit "&") p1 = (buf'', some p0', p1')) :
    left buf'' p1' < left buf p1 := by
  rw [assignPair_eq] at h
  obtain ⟨_, _, heq⟩ := Option.map_eq_some_iff.mp h
  obtain rfl : (pair buf p0).1 = buf' := congrArg Prod.fst heq
  exact left_next hn

/-- The loop of `split_url_pragma_data`, from a `p0` that is not null. -/
def splitUrlPragmaDataLoop (buf : List Byte) (s : PragmaData) (p0 : Nat) (p1 : Option Nat) :
    Option (List Byte × PragmaData) :=
  match _ : assignPair buf p0 with
  | none => none
  | some (buf', k, v) =>
      match _ : lwStrtokR buf' none (CString.lit "&") p1 with
      | (buf'', none, _) => some (buf'', s.insert k v)
      | (buf'', some p0', p1') => splitUrlPragmaDataLoop buf'' (s.insert k v) p0' p1'
termination_by left buf p1
decreasing_by exact left_assignPair ‹_› ‹_›

/-- `split_url_pragma_data`: the buffer afterwards and the map. -/
def splitUrlPragmaData (buf : List Byte) : Option (List Byte × PragmaData) :=
  match lwStrtokR buf (some 0) (CString.lit "&") none with
  | (buf', none, _) => some (buf', ∅)
  | (buf', some p0, p1) => splitUrlPragmaDataLoop buf' ∅ p0 p1

section PragmaData

variable {buf buf' buf'' : List Byte} {s : PragmaData} {p0 p0' : Nat} {p1 p1' : Option Nat}
  {pkv : CString × CString}

/-- One round of the loop. -/
theorem splitUrlPragmaDataLoop_step (buf : List Byte) (s : PragmaData) (p0 : Nat)
    (p1 : Option Nat) :
    splitUrlPragmaDataLoop buf s p0 p1 =
      match assignPair buf p0 with
      | none => none
      | some (buf', k, v) =>
          match lwStrtokR buf' none (CString.lit "&") p1 with
          | (buf'', none, _) => some (buf'', s.insert k v)
          | (buf'', some p0', p1') => splitUrlPragmaDataLoop buf'' (s.insert k v) p0' p1' := by
  rw [splitUrlPragmaDataLoop]
  split
  · rename_i hp
    rw [hp]
  · rename_i hp
    rw [hp]
    dsimp only
    split
    · rename_i hn
      rw [hn]
    · rename_i hn
      rw [hn]

theorem splitUrlPragmaDataLoop_none (hp : assignPair buf p0 = none) :
    splitUrlPragmaDataLoop buf s p0 p1 = none := by
  rw [splitUrlPragmaDataLoop_step, hp]

theorem splitUrlPragmaDataLoop_last (hp : assignPair buf p0 = some (buf', pkv))
    (hn : lwStrtokR buf' none (CString.lit "&") p1 = (buf'', none, p1')) :
    splitUrlPragmaDataLoop buf s p0 p1 = some (buf'', s.insert pkv.1 pkv.2) := by
  rw [splitUrlPragmaDataLoop_step, hp]
  dsimp only
  rw [hn]

theorem splitUrlPragmaDataLoop_next (hp : assignPair buf p0 = some (buf', pkv))
    (hn : lwStrtokR buf' none (CString.lit "&") p1 = (buf'', some p0', p1')) :
    splitUrlPragmaDataLoop buf s p0 p1 =
      splitUrlPragmaDataLoop buf'' (s.insert pkv.1 pkv.2) p0' p1' := by
  rw [splitUrlPragmaDataLoop_step, hp]
  dsimp only
  rw [hn]

/-- `s[k] = v;` for one pair after another. -/
def pragmaData (kv : List (CString × CString)) : PragmaData :=
  kv.foldl (fun s pkv => s.insert pkv.1 pkv.2) ∅

theorem pragmaData_concat (kv : List (CString × CString)) (pkv : CString × CString) :
    pragmaData (kv ++ [pkv]) = (pragmaData kv).insert pkv.1 pkv.2 := by
  simp [pragmaData, List.foldl_append]

/--
The second loop takes the same segments as that of `parse` and writes the same bytes.
Where `parse` returns -1 it assigns from a null pointer.
-/
theorem splitUrlPragmaDataLoop_eq (buf : List Byte) (kv : List (CString × CString)) (p0 : Nat)
    (p1 : Option Nat) :
    splitUrlPragmaDataLoop buf (pragmaData kv) p0 p1 =
      let r := parseLoop buf kv p0 p1
      if r.2.2 = 0 then some (r.1, pragmaData r.2.1.kv) else none := by
  induction hn : left buf p1 using Nat.strongRecOn generalizing buf kv p0 p1 with
  | ind n ih =>
      subst hn
      have hassign := assignPair_eq buf p0
      rcases parseLoop_cases buf p0 p1 with
        hp | ⟨pkv, buf', p1', hp, hnext⟩ | ⟨pkv, buf', p0', p1', hp, hnext⟩
      · rw [hp, Option.map_none] at hassign
        rw [splitUrlPragmaDataLoop_none hassign, parseLoop_none hp]
        rfl
      · rw [hp, Option.map_some] at hassign
        rw [splitUrlPragmaDataLoop_last hassign hnext, parseLoop_last hp hnext,
          ← pragmaData_concat]
        rfl
      · rw [hp, Option.map_some] at hassign
        rw [splitUrlPragmaDataLoop_next hassign hnext, parseLoop_next hp hnext,
          ← pragmaData_concat]
        exact ih _ (left_next hnext) buf' _ p0' p1' rfl

/-- The first call finds nothing exactly in the empty string. -/
theorem lwStrtokR_first (data : CString) :
    (data.bytes = [] ∧
      lwStrtokR data.bytes (some 0) (CString.lit "&") none = (data.bytes, none, none)) ∨
    data.bytes ≠ [] ∧ ∃ buf' p0 p1,
      lwStrtokR data.bytes (some 0) (CString.lit "&") none = (buf', some p0, p1) := by
  rcases lwStrtokR_cases data.bytes (some 0) (CString.lit "&") none with
    ⟨hnull, h⟩ | ⟨p, hp, hne, _, h⟩ | ⟨p, t, c, rest, hp, ht, _, _, h⟩
  · left
    have hempty := hnull 0 rfl
    rw [str_zero] at hempty
    exact ⟨hempty, h⟩
  · right
    obtain rfl : 0 = p := Option.some.inj hp
    rw [str_zero] at hne
    exact ⟨hne, _, _, _, h⟩
  · right
    obtain rfl : 0 = p := Option.some.inj hp
    rw [str_zero] at ht
    exact ⟨by rw [ht]; simp, _, _, _, h⟩

theorem segments_eq_nil_iff {data : CString} : segments data = [] ↔ data.bytes = [] := by
  unfold segments
  generalize data.bytes = s
  rcases cut_cases_one (chr '&') s with rfl | ⟨hne, hplain⟩ | ⟨t, rest, rfl, ht⟩
  · simp
  · rw [tokens_end_one hne hplain]
    simp [hne]
  · rw [tokens_cut_one ht]
    simp

/-- What `parse` returns is 0 exactly for a query of pairs. -/
theorem parse_result (self : KVQueryUrlValue) (data : CString) :
    (parse self data.bytes).2.2 = 0 ↔ data.bytes ≠ [] ∧ ∀ seg ∈ segments data, IsPair seg := by
  rw [parse_refines, parse_eq]
  by_cases hnil : segments data = []
  · rw [if_pos hnil]
    simp [segments_eq_nil_iff.mp hnil]
  · have hne : data.bytes ≠ [] := fun h => hnil (segments_eq_nil_iff.mpr h)
    rw [if_neg hnil, parseResult]
    dsimp only
    by_cases hall : ∀ seg ∈ segments data, IsPair seg
    · rw [if_pos hall]
      exact iff_of_true rfl ⟨hne, hall⟩
    · rw [if_neg hall]
      exact iff_of_false (by decide) fun h => hall h.2

/-- And what it stores are the pairs in front of the first segment that is not one. -/
theorem parse_kv (self : KVQueryUrlValue) (data : CString) :
    (parse self data.bytes).2.1.each = leading KVQueryUrlValue.pair (segments data) := by
  rw [parse_refines]
  exact parse_kv_eq data

/-- **`split_url_pragma_data` is defined for the queries that `parse` takes, and no others.** -/
theorem splitUrlPragmaData_eq (self : KVQueryUrlValue) (data : CString) :
    splitUrlPragmaData data.bytes =
      if data.bytes = [] then some (data.bytes, ∅)
      else if ∀ seg ∈ segments data, IsPair seg then
        some ((parse self data.bytes).1, pragmaData (parse self data.bytes).2.1.each)
      else none := by
  have hresult := parse_result self data
  rcases lwStrtokR_first data with ⟨hempty, hfirst⟩ | ⟨hne, buf', p0, p1, hfirst⟩
  · rw [if_pos hempty, splitUrlPragmaData, hfirst]
  · have hparse : parse self data.bytes = parseLoop buf' [] p0 p1 := by
      rw [parse, hfirst]
      rfl
    have hloop := splitUrlPragmaDataLoop_eq buf' [] p0 p1
    rw [← hparse] at hloop
    rw [if_neg hne, splitUrlPragmaData, hfirst]
    refine hloop.trans ?_
    simp only [hresult, hne, ne_eq, not_false_eq_true, true_and, KVQueryUrlValue.each]

end PragmaData

end InPlace

end NanomsgDemo.Http

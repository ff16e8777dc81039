import NanomsgDemo.Http.Evhttp

/-!
# Form data

`libutils/lw_util.cpp`: `lw_strtok_r`, which cuts a string at the next delimiter,
and `KVQueryUrlValue`, which cuts `k=v&k=v` with it twice over. Tokens are cut in
place, so a token is the bytes up to its own end.

`lw_strtok_r` gives an empty token between two delimiters, and no token where the
string ends: a pair without a value ends the parse, and what was parsed before it
is kept.
-/

namespace NanomsgDemo.Http

open Net (Byte CString chr)

/-- `lw_strtok_r` of a string and `*state`, either of them maybe null: the token and `*state`. -/
def lwStrtokR (s : Option (List Byte)) (delim : Char) (state : Option (List Byte)) :
    Option (List Byte) × Option (List Byte) :=
  match s.or state with
  | none => (none, state)
  | some start =>
      let token := start.takeWhile (· ≠ chr delim)
      match start.dropWhile (· ≠ chr delim) with
      | [] => if token.isEmpty then (none, state) else (some token, none)
      | _ :: cp => (some token, some cp)

/-- What is left to read under a `state`. -/
def stateSize (state : Option (List Byte)) : Nat :=
  match state with
  | none => 0
  | some s => s.length + 1

/-- The last token is what is left, if anything is. -/
theorem lwStrtokR_end {s state : Option (List Byte)} {delim : Char} {token : List Byte}
    (hs : s.or state = some token) (hne : token ≠ []) (h : chr delim ∉ token) :
    lwStrtokR s delim state = (some token, none) := by
  have hall : ∀ b ∈ token, decide (b ≠ chr delim) = true := by
    intro b hb
    exact decide_eq_true fun he => h (he ▸ hb)
  simp only [lwStrtokR, hs, List.takeWhile_eq_self_iff.mpr hall,
    List.dropWhile_eq_nil_iff.mpr hall]
  rw [if_neg (by simpa using hne)]

/-- Any other token ends at the first delimiter. -/
theorem lwStrtokR_cut {s state : Option (List Byte)} {delim : Char} {token t : List Byte}
    (hs : s.or state = some (token ++ chr delim :: t)) (h : chr delim ∉ token) :
    lwStrtokR s delim state = (some token, some t) := by
  have hall : ∀ b ∈ token, decide (b ≠ chr delim) = true := by
    intro b hb
    exact decide_eq_true fun he => h (he ▸ hb)
  have ht : (token ++ chr delim :: t).takeWhile (· ≠ chr delim) = token := by
    rw [List.takeWhile_append_of_pos hall, List.takeWhile_cons_of_neg (by simp),
      List.append_nil]
  have hd : (token ++ chr delim :: t).dropWhile (· ≠ chr delim) = chr delim :: t := by
    rw [List.dropWhile_append_of_pos hall, List.dropWhile_cons_of_neg (by simp)]
  simp only [lwStrtokR, hs, ht, hd]

/-- The next token leaves less to read. -/
theorem stateSize_lwStrtokR {delim : Char} {state state' : Option (List Byte)}
    {token : List Byte} (h : lwStrtokR none delim state = (some token, state')) :
    stateSize state' < stateSize state := by
  cases state with
  | none => cases h
  | some start =>
      unfold lwStrtokR at h
      simp only [Option.none_or] at h
      split at h
      · split at h
        · cases h
        · cases h
          exact Nat.succ_pos _
      · rename_i c cp hcp
        cases h
        have hl := (List.dropWhile_suffix (l := start) (· ≠ chr delim)).length_le
        rw [hcp] at hl
        exact Nat.succ_lt_succ hl

/-! ## `KVQueryUrlValue` -/

/-- `KVQueryUrlValue`. -/
structure KVQueryUrlValue where
  kv : List (CString × CString)
  deriving DecidableEq

namespace KVQueryUrlValue

/-- The body of the loop of `parse`: the pair in `p0`, if it is one. -/
def pair (p0 : List Byte) : Option (CString × CString) :=
  match lwStrtokR (some p0) '=' none with
  | (none, _) => none
  | (some k, q1) =>
      match lwStrtokR none '=' q1 with
      | (none, _) => none
      | (some v, _) => some (CString.ofBuffer k, CString.ofBuffer v)

/-- The loop of `parse`, from the pairs it has, a `p0` that is not null, and `p1`. -/
def parseLoop (kv : List (CString × CString)) (p0 : List Byte) (p1 : Option (List Byte)) :
    KVQueryUrlValue × Int32 :=
  match pair p0 with
  | none => (⟨kv⟩, -1)
  | some pkv =>
      match _ : lwStrtokR none '&' p1 with
      | (none, _) => (⟨kv ++ [pkv]⟩, 0)
      | (some p0, p1) => parseLoop (kv ++ [pkv]) p0 p1
termination_by stateSize p1
decreasing_by exact stateSize_lwStrtokR ‹_›

/-- One round of the loop. -/
theorem parseLoop_step (kv : List (CString × CString)) (p0 : List Byte)
    (p1 : Option (List Byte)) :
    parseLoop kv p0 p1 =
      match pair p0 with
      | none => (⟨kv⟩, -1)
      | some pkv =>
          match lwStrtokR none '&' p1 with
          | (none, _) => (⟨kv ++ [pkv]⟩, 0)
          | (some p0', p1') => parseLoop (kv ++ [pkv]) p0' p1' := by
  rw [parseLoop]
  split
  · rfl
  · split
    · rename_i h
      rw [h]
    · rename_i h
      rw [h]

theorem parseLoop_last {kv : List (CString × CString)} {p0 : List Byte}
    {p1 p1' : Option (List Byte)} {pkv : CString × CString} (hp : pair p0 = some pkv)
    (hn : lwStrtokR none '&' p1 = (none, p1')) :
    parseLoop kv p0 p1 = (⟨kv ++ [pkv]⟩, 0) := by
  rw [parseLoop_step, hp]
  dsimp only
  rw [hn]

theorem parseLoop_next {kv : List (CString × CString)} {p0 token : List Byte}
    {p1 p1' : Option (List Byte)} {pkv : CString × CString} (hp : pair p0 = some pkv)
    (hn : lwStrtokR none '&' p1 = (some token, p1')) :
    parseLoop kv p0 p1 = parseLoop (kv ++ [pkv]) token p1' := by
  rw [parseLoop_step, hp]
  dsimp only
  rw [hn]

/-- `KVQueryUrlValue::parse`. -/
def parse (data : CString) : KVQueryUrlValue × Int32 :=
  match lwStrtokR (some data.bytes) '&' none with
  | (none, _) => (⟨[]⟩, -1)
  | (some p0, p1) => parseLoop [] p0 p1

/-- `KVQueryUrlValue::find`. -/
def find (kv : KVQueryUrlValue) (key : CString) : Option CString :=
  (kv.kv.find? fun pkv => pkv.1 = key).map Prod.snd

end KVQueryUrlValue

end NanomsgDemo.Http

import NanomsgDemo.Http.Evhttp

/-!
# The JSON that is written

The rapidjson in the tree, `json/rapidjson`: a document that is an object of strings,
and the `Writer` that turns it into text. The text of a reply is taken for a format,
so what counts here is where a `%` can come from: only from the strings, and each of
them is inside quotes of its own.
-/

namespace NanomsgDemo.Http

open Net (Byte CString chr text)
open Format

/-- `GenericValue(const Ch*)`: `StrLen` returns 32 bits. -/
def stringValue (s : CString) : List Byte := s.bytes.take (s.bytes.length % 2 ^ 32)

/-- The table `escape` of `WriteString`. -/
def escape (c : Byte) : Option Byte :=
  if c = 8 then some (chr 'b')
  else if c = 9 then some (chr 't')
  else if c = 10 then some (chr 'n')
  else if c = 12 then some (chr 'f')
  else if c = 13 then some (chr 'r')
  else if c < 0x20 then some (chr 'u')
  else if c = 0x22 then some 0x22
  else if c = 0x5C then some 0x5C
  else none

/-- `hexDigits`. -/
def hexDigit (n : Byte) : Byte := (text "0123456789ABCDEF").getD n.toNat 0

/-- One character in `WriteString`. -/
def writeChar (c : Byte) : List Byte :=
  match escape c with
  | some e =>
      if e = chr 'u' then
        [0x5C, e, chr '0', chr '0', hexDigit (c >>> 4), hexDigit (c &&& 0xF)]
      else [0x5C, e]
  | none => [c]

/-- `Writer::WriteString`. -/
def writeString (s : List Byte) : List Byte := 0x22 :: (s.flatMap writeChar ++ [0x22])

/-- The members of an object, with the marks of `Prefix` between them. -/
def writeMembers : List (List Byte × List Byte) → List Byte
  | [] => []
  | [(k, v)] => writeString k ++ chr ':' :: writeString v
  | (k, v) :: ms => writeString k ++ chr ':' :: writeString v ++ chr ',' :: writeMembers ms

/-- `Document::Accept` of a `Writer`: an object with string members. -/
def writeObject (members : List (List Byte × List Byte)) : List Byte :=
  chr '\x7b' :: (writeMembers members ++ [chr '\x7d'])

/-! ## Where the `%` come from -/

theorem hexDigit_ne (n : Byte) : hexDigit n ≠ percent := by
  unfold hexDigit
  rw [List.getD_eq_getElem?_getD]
  cases h : (text "0123456789ABCDEF")[n.toNat]? with
  | none => decide
  | some d =>
      have hd : d ∈ text "0123456789ABCDEF" := List.mem_of_getElem? h
      intro he
      rw [Option.getD_some] at he
      rw [he] at hd
      exact absurd hd (by decide)

theorem escape_ne {c e : Byte} (h : escape c = some e) : e ≠ percent := by
  unfold escape at h
  split_ifs at h
  all_goals
    cases h
    decide

theorem writeChar_percent : writeChar (percent) = [percent] := by decide

/-- Any other character is written as some that are not `%` either. -/
theorem writeChar_plain {c : Byte} (hc : c ≠ percent) :
    ∃ d u, writeChar c = d :: u ∧ percent ∉ d :: u := by
  unfold writeChar
  cases he : escape c with
  | none => exact ⟨c, [], rfl, by simpa using Ne.symm hc⟩
  | some e =>
      have hb : percent ≠ 0x5C := by decide
      have h0 : percent ≠ chr '0' := by decide
      dsimp only
      split
      · refine ⟨_, _, rfl, ?_⟩
        simp [hb, h0, Ne.symm (escape_ne he), Ne.symm (hexDigit_ne _)]
      · refine ⟨_, _, rfl, ?_⟩
        simp [hb, Ne.symm (escape_ne he)]

theorem paired_writeChars (s : List Byte) :
    paired (s.flatMap writeChar) = paired s := by
  fun_induction paired s with
  | case1 => rfl
  | case2 d s' ih =>
      by_cases hd : d = percent
      · subst hd
        simp [writeChar_percent, paired, ih]
      · obtain ⟨e, u, hu, hplain⟩ := writeChar_plain hd
        have he : e ≠ percent := fun he => hplain (he ▸ List.mem_cons_self)
        simp [writeChar_percent, hu, paired, hd, he]
  | case3 => simp [writeChar_percent, paired]
  | case4 c s hc ih =>
      obtain ⟨e, u, hu, hplain⟩ := writeChar_plain hc
      rw [List.flatMap_cons, hu, paired_plain_append hplain, ih]

/-- A string in quotes keeps its `%` to itself. -/
theorem paired_writeString (s t : List Byte) :
    paired (writeString s ++ t) = (paired s && paired t) := by
  have hq : (0x22 : Byte) ≠ percent := by decide
  unfold writeString
  rw [List.cons_append, paired_cons hq, List.append_assoc, List.singleton_append,
    paired_append_cons hq, paired_writeChars]

theorem paired_writeMembers (ms : List (List Byte × List Byte)) (t : List Byte) :
    paired (writeMembers ms ++ t) =
      ((ms.all fun m => paired m.1 && paired m.2) && paired t) := by
  have hcolon : chr ':' ≠ percent := by decide
  have hcomma : chr ',' ≠ percent := by decide
  fun_induction writeMembers ms with
  | case1 => rfl
  | case2 k v =>
      simp [paired_writeString, paired_cons hcolon, Bool.and_assoc]
  | case3 k v ms hms ih =>
      simp [paired_writeString, paired_cons hcolon, paired_cons hcomma, ih,
        Bool.and_assoc]

/-- **The text of an object is a format without arguments exactly if each of its strings is.** -/
theorem paired_writeObject (ms : List (List Byte × List Byte)) :
    paired (writeObject ms) = ms.all fun m => paired m.1 && paired m.2 := by
  have hopen : chr '\x7b' ≠ percent := by decide
  have hclose : paired [chr '\x7d'] = true := by decide
  rw [writeObject, paired_cons hopen, paired_writeMembers, hclose, Bool.and_true]

end NanomsgDemo.Http

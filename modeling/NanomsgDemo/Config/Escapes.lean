import NanomsgDemo.Config.TinyXml

/-!
# What is written and what is read of it

`PutString` writes a text with entities for the characters that mean something in XML and
for the control characters; `GetChar` reads one character at a time, however it is
written. So of a Unicode text in UTF-8 all that changes is the white space, where
`ReadText` condenses it: what it reads are the characters `condensed s`.

Only `&#x` is in the way. From there on `PutString` takes what it finds for an entity.
-/

namespace NanomsgDemo.Config

open Net (Byte chr text)

/-- A text in UTF-8. -/
def encode (s : List Char) : List Byte := s.flatMap String.utf8EncodeChar

/-- A character as `PutString` writes it. -/
def putCharacter (c : Char) : List Byte := (String.utf8EncodeChar c).flatMap putChar

/-- No `&#x` anywhere. -/
def NoReference (s : List Char) : Prop := ¬ ['&', '#', 'x'] <:+: s

instance (s : List Char) : Decidable (NoReference s) := inferInstanceAs (Decidable (¬ _))

/-- The characters of the byte order marks. -/
def isMarkCharacter (c : Char) : Bool :=
  c.toNat = 0xFEFF || c.toNat = 0xFFFE || c.toNat = 0xFFFF

/-- What is left when white space and byte order marks are skipped. -/
def trimStart (s : List Char) : List Char := s.dropWhile fun c => c = ' ' || isMarkCharacter c

/-- One space for several; the ones at the end are lost. -/
def squeeze : (space : Bool) → List Char → List Char
  | _, [] => []
  | space, c :: s =>
      if c = ' ' then squeeze true s
      else (if space then [' '] else []) ++ c :: squeeze false s

/-- What is read of a text where white space is condensed. -/
def condensed (s : List Char) : List Char := squeeze false (trimStart s)

/-! ## Bytes -/

theorem utf8_ascii {c : Char} (h : c.toNat < 128) :
    String.utf8EncodeChar c = [UInt8.ofNat c.toNat] := by
  have hle : c.val.toNat ≤ 0x7f := by
    show c.toNat ≤ 127
    omega
  unfold String.utf8EncodeChar
  exact if_pos hle

theorem toNat_ofNat_add {n k : Nat} (h : n + k < 256) : (UInt8.ofNat (n + k)).toNat = n + k := by
  rw [UInt8.toNat_ofNat', Nat.mod_eq_of_lt h]

theorem utf8ByteTable_eq (b : Byte) : utf8ByteTable b =
    if b.toNat < 0xC2 then 1 else if b.toNat < 0xE0 then 2 else if b.toNat < 0xF0 then 3
    else if b.toNat < 0xF5 then 4 else 1 := by
  unfold utf8ByteTable
  simp only [UInt8.lt_iff_toNat_lt]
  rfl

/-- What `c` looks like in UTF-8 if it is not ASCII: its length is that of the table. -/
structure Multibyte (c : Char) (lead : Byte) (more : List Byte) : Prop where
  bytes : String.utf8EncodeChar c = lead :: more
  length : utf8ByteTable lead = more.length + 1
  ne_nil : more ≠ []
  high : ∀ b ∈ lead :: more, 0x80 ≤ b.toNat

theorem exists_multibyte {c : Char} (h : 128 ≤ c.toNat) : ∃ lead more, Multibyte c lead more := by
  have hv : c.val.toNat = c.toNat := rfl
  have hmax : c.toNat < 0x110000 := by
    have hvalid := c.valid
    unfold UInt32.isValidChar Nat.isValidChar at hvalid
    omega
  have htail : ∀ n, (UInt8.ofNat (n % 0x40 + 0x80)).toNat = n % 0x40 + 0x80 :=
    fun n => toNat_ofNat_add (by omega)
  by_cases h2 : c.toNat ≤ 0x7ff
  · have hlead : (UInt8.ofNat (c.toNat / 64 % 0x20 + 0xc0)).toNat = c.toNat / 64 % 0x20 + 0xc0 :=
      toNat_ofNat_add (by omega)
    refine ⟨UInt8.ofNat (c.toNat / 64 % 0x20 + 0xc0), [UInt8.ofNat (c.toNat % 0x40 + 0x80)],
      ?_, ?_, List.cons_ne_nil _ _, ?_⟩
    · unfold String.utf8EncodeChar
      simp only [hv]
      rw [if_neg (by omega), if_pos h2]
    · rw [utf8ByteTable_eq, hlead, if_neg (by omega), if_pos (by omega)]
      rfl
    · simp only [List.forall_mem_cons, hlead, htail]
      exact ⟨by omega, by omega, fun _ hb => absurd hb List.not_mem_nil⟩
  · by_cases h3 : c.toNat ≤ 0xffff
    · have hlead : (UInt8.ofNat (c.toNat / 4096 % 0x10 + 0xe0)).toNat =
          c.toNat / 4096 % 0x10 + 0xe0 := toNat_ofNat_add (by omega)
      refine ⟨UInt8.ofNat (c.toNat / 4096 % 0x10 + 0xe0),
        [UInt8.ofNat (c.toNat / 64 % 0x40 + 0x80), UInt8.ofNat (c.toNat % 0x40 + 0x80)],
        ?_, ?_, List.cons_ne_nil _ _, ?_⟩
      · unfold String.utf8EncodeChar
        simp only [hv]
        rw [if_neg (by omega), if_neg h2, if_pos h3]
      · rw [utf8ByteTable_eq, hlead, if_neg (by omega), if_neg (by omega), if_pos (by omega)]
        rfl
      · simp only [List.forall_mem_cons, hlead, htail]
        exact ⟨by omega, by omega, by omega, fun _ hb => absurd hb List.not_mem_nil⟩
    · have hlead : (UInt8.ofNat (c.toNat / 262144 % 0x08 + 0xf0)).toNat =
          c.toNat / 262144 % 0x08 + 0xf0 := toNat_ofNat_add (by omega)
      refine ⟨UInt8.ofNat (c.toNat / 262144 % 0x08 + 0xf0),
        [UInt8.ofNat (c.toNat / 4096 % 0x40 + 0x80), UInt8.ofNat (c.toNat / 64 % 0x40 + 0x80),
          UInt8.ofNat (c.toNat % 0x40 + 0x80)], ?_, ?_, List.cons_ne_nil _ _, ?_⟩
      · unfold String.utf8EncodeChar
        simp only [hv]
        rw [if_neg (by omega), if_neg h2, if_neg h3]
      · rw [utf8ByteTable_eq, hlead, if_neg (by omega), if_neg (by omega), if_neg (by omega),
          if_pos (by omega)]
        rfl
      · simp only [List.forall_mem_cons, hlead, htail]
        exact ⟨by omega, by omega, by omega, by omega, fun _ hb => absurd hb List.not_mem_nil⟩

/-! ## One character -/

/-- Bytes that `GetChar` takes for one character, and that no tag or quote begins with. -/
structure Code (code value : List Byte) : Prop where
  reads : ∀ rest, ∃ b l, code ++ rest = b :: l ∧ getChar .utf8 b l = (value, .at rest)
  head : ∀ rest b l, code ++ rest = b :: l → b ≠ 0x22 ∧ b ≠ 0x27 ∧ b ≠ 0x3C

theorem Code.intro {b : Byte} {more value : List Byte}
    (h : ∀ rest, getChar .utf8 b (more ++ rest) = (value, .at rest))
    (hb : b ≠ 0x22 ∧ b ≠ 0x27 ∧ b ≠ 0x3C) : Code (b :: more) value where
  reads rest := ⟨b, more ++ rest, rfl, h rest⟩
  head rest c l hc := by
    obtain ⟨rfl, -⟩ := List.cons.inj hc
    exact hb

/-- A control character, by its number. -/
theorem getEntity_number (n : Fin 32) (rest : List Byte) :
    getEntity .utf8 (text "#x" ++ [upperHex (UInt8.ofNat n / 16), upperHex (UInt8.ofNat n % 16),
      chr ';'] ++ rest) = ([UInt8.ofNat n], .at rest) := by
  have hdigits : ∀ n : Fin 32,
      upperHex (UInt8.ofNat n / 16) ≠ chr ';' ∧ upperHex (UInt8.ofNat n % 16) ≠ chr ';' ∧
        digitsValue true 1 ([upperHex (UInt8.ofNat n / 16),
          upperHex (UInt8.ofNat n % 16)].reverse.takeWhile (· ≠ chr 'x')) = some (UInt32.ofNat n) ∧
        convertUTF32ToUTF8 (UInt32.ofNat n) = [UInt8.ofNat n] := by decide
  obtain ⟨h1, h2, hvalue, hbytes⟩ := hdigits n
  show numberedEntity .utf8 true (chr 'x') (upperHex (UInt8.ofNat n / 16) ::
    upperHex (UInt8.ofNat n % 16) :: chr ';' :: rest) = _
  generalize upperHex (UInt8.ofNat n / 16) = a at h1 hvalue ⊢
  generalize upperHex (UInt8.ofNat n % 16) = b at h2 hvalue ⊢
  have hdrop : (a :: b :: chr ';' :: rest).dropWhile (· ≠ chr ';') = chr ';' :: rest := by
    simp [h1, h2]
  have htake : (a :: b :: chr ';' :: rest).takeWhile (· ≠ chr ';') = [a, b] := by
    simp [h1, h2]
  unfold numberedEntity
  rw [hdrop, htake]
  dsimp only
  rw [hvalue]
  exact congrArg (·, Ptr.at rest) hbytes

theorem code_putChar {b : Byte} (hb : b.toNat < 128) : Code (putChar b) [b] := by
  by_cases hamp : b = 0x26
  · subst hamp
    exact Code.intro (fun _ => rfl) (by decide)
  by_cases hlt : b = 0x3C
  · subst hlt
    exact Code.intro (fun _ => rfl) (by decide)
  by_cases hgt : b = 0x3E
  · subst hgt
    exact Code.intro (fun _ => rfl) (by decide)
  by_cases hquot : b = 0x22
  · subst hquot
    exact Code.intro (fun _ => rfl) (by decide)
  by_cases hapos : b = 0x27
  · subst hapos
    exact Code.intro (fun _ => rfl) (by decide)
  unfold putChar
  rw [if_neg hamp, if_neg hlt, if_neg hgt, if_neg hquot, if_neg hapos]
  split
  · rename_i hctl
    have h32 : b.toNat < 32 := UInt8.lt_iff_toNat_lt.mp hctl
    have heq : UInt8.ofNat (⟨b.toNat, h32⟩ : Fin 32) = b := UInt8.ofNat_toNat
    have hentity := getEntity_number ⟨b.toNat, h32⟩
    rw [heq] at hentity
    exact Code.intro hentity (by decide)
  · refine Code.intro (fun rest => ?_) ⟨hquot, hapos, hlt⟩
    have htable : utf8ByteTable b = 1 := by
      rw [utf8ByteTable_eq, if_pos (by omega)]
    unfold getChar
    simp only [if_pos, htable, if_neg hamp]
    rfl

theorem ne_of_high {b : Byte} (hb : 0x80 ≤ b.toNat) {k : Byte} (hk : k.toNat < 0x80) : b ≠ k := by
  rintro rfl
  exact absurd hk (Nat.not_lt.mpr hb)

theorem putChar_high {b : Byte} (hb : 0x80 ≤ b.toNat) : putChar b = [b] := by
  have hne : ∀ n < 0x80, b ≠ UInt8.ofNat n := fun n hn => by
    refine ne_of_high hb ?_
    rwa [UInt8.toNat_ofNat', Nat.mod_eq_of_lt (by omega)]
  have hamp : b ≠ 0x26 := hne 0x26 (by omega)
  have hlt : b ≠ 0x3C := hne 0x3C (by omega)
  have hgt : b ≠ 0x3E := hne 0x3E (by omega)
  have hquot : b ≠ 0x22 := hne 0x22 (by omega)
  have hapos : b ≠ 0x27 := hne 0x27 (by omega)
  unfold putChar
  rw [if_neg hamp, if_neg hlt, if_neg hgt, if_neg hquot, if_neg hapos, if_neg]
  rw [UInt8.lt_iff_toNat_lt]
  exact Nat.not_lt.mpr (Nat.le_trans (by decide) hb)

theorem flatMap_putChar_high {l : List Byte} (hl : ∀ b ∈ l, 0x80 ≤ b.toNat) :
    l.flatMap putChar = l := by
  induction l with
  | nil => rfl
  | cons b l ih =>
      rw [List.flatMap_cons, putChar_high (hl b List.mem_cons_self),
        ih fun c hc => hl c (List.mem_cons_of_mem b hc)]
      rfl

theorem Multibyte.putCharacter {c : Char} {lead : Byte} {more : List Byte}
    (h : Multibyte c lead more) : putCharacter c = lead :: more := by
  unfold Config.putCharacter
  rw [h.bytes, flatMap_putChar_high h.high]

theorem putCharacter_ascii {c : Char} (h : c.toNat < 128) :
    putCharacter c = putChar (UInt8.ofNat c.toNat) := by
  unfold putCharacter
  rw [utf8_ascii h, List.flatMap_singleton]

theorem putCharacter_ascii_head {c : Char} (h : c.toNat < 128) {rest l : List Byte} {b : Byte}
    (hb : putCharacter c ++ rest = b :: l) : (putChar (UInt8.ofNat c.toNat)).head? = some b := by
  have hne : putChar (UInt8.ofNat c.toNat) ≠ [] := by
    unfold putChar
    split_ifs <;> exact List.cons_ne_nil _ _
  obtain ⟨d, m, hd⟩ := List.exists_cons_of_ne_nil hne
  rw [putCharacter_ascii h, hd] at hb
  rw [hd, (List.cons.inj hb).1]
  rfl

/-- Every character is read as it was. -/
theorem code_putCharacter (c : Char) : Code (putCharacter c) (String.utf8EncodeChar c) := by
  by_cases h : c.toNat < 128
  · rw [putCharacter_ascii h, utf8_ascii h]
    exact code_putChar (by rw [UInt8.toNat_ofNat', Nat.mod_eq_of_lt (by omega)]; exact h)
  · obtain ⟨lead, more, hc⟩ := exists_multibyte (c := c) (by omega)
    have hlead := hc.high lead List.mem_cons_self
    rw [hc.putCharacter, hc.bytes]
    refine Code.intro (fun rest => ?_) ⟨ne_of_high hlead (by decide),
      ne_of_high hlead (by decide), ne_of_high hlead (by decide)⟩
    have hmore := List.length_pos_iff.mpr hc.ne_nil
    unfold getChar
    simp only [if_pos, hc.length]
    rw [if_neg (by omega)]
    have htake : (lead :: (more ++ rest) ++ List.replicate (more.length + 1) 0).take
        (more.length + 1) = lead :: more := by
      rw [← List.cons_append, List.append_assoc]
      exact List.take_left' rfl
    have hadd : (Ptr.at (lead :: (more ++ rest))).add (more.length + 1) = .at rest :=
      Ptr.add_append (lead :: more) rest
    rw [htake, hadd]

/-! ## Texts -/

@[simp] theorem encode_nil : encode [] = [] := rfl

theorem encode_cons (c : Char) (s : List Char) :
    encode (c :: s) = String.utf8EncodeChar c ++ encode s := List.flatMap_cons

theorem encode_append (s t : List Char) : encode (s ++ t) = encode s ++ encode t :=
  List.flatMap_append

theorem encode_injective {s t : List Char} (h : encode s = encode t) : s = t := by
  have hbytes : (String.ofList s).toByteArray = (String.ofList t).toByteArray :=
    congrArg List.toByteArray h
  exact String.ofList_injective (String.toByteArray_inj.mp hbytes)

/-- An ASCII byte stands for itself. -/
theorem encode_eq_cons {s : List Char} {b : Byte} {l : List Byte} (h : encode s = b :: l)
    (hb : b.toNat < 128) : ∃ s', s = Char.ofNat b.toNat :: s' ∧ l = encode s' := by
  cases s with
  | nil => exact absurd h (List.cons_ne_nil b l).symm
  | cons c s =>
      rw [encode_cons] at h
      by_cases hc : c.toNat < 128
      · rw [utf8_ascii hc] at h
        obtain ⟨rfl, rfl⟩ := List.cons.inj h
        refine ⟨s, ?_, rfl⟩
        rw [UInt8.toNat_ofNat', Nat.mod_eq_of_lt (by omega), Char.ofNat_toNat]
      · obtain ⟨lead, more, hm⟩ := exists_multibyte (c := c) (by omega)
        rw [hm.bytes] at h
        obtain ⟨rfl, -⟩ := List.cons.inj h
        have := hm.high lead List.mem_cons_self
        omega

theorem putString_cons {b : Byte} (hb : b ≠ 0x26) (l : List Byte) :
    putString false (b :: l) = putChar b ++ putString false l := by
  unfold putString
  rw [if_neg (fun h => absurd h.1 Bool.false_ne_true), if_neg fun h => hb h.1]
  cases l <;> rfl

theorem putString_append {l : List Byte} (hl : ∀ b ∈ l, 0x80 ≤ b.toNat) (t : List Byte) :
    putString false (l ++ t) = l ++ putString false t := by
  induction l with
  | nil => rfl
  | cons b l ih =>
      have hb := hl b List.mem_cons_self
      rw [List.cons_append, putString_cons, putChar_high hb,
        ih fun c hc => hl c (List.mem_cons_of_mem b hc)]
      · rfl
      · exact ne_of_high hb (by decide)

/-- Without `&#x` the characters are written one by one. -/
theorem putString_encode {s : List Char} (h : NoReference s) :
    putString false (encode s) = s.flatMap putCharacter := by
  induction s with
  | nil => rfl
  | cons c s ih =>
      have hrest : NoReference s := fun hin => h (hin.trans (List.suffix_cons c s).isInfix)
      rw [encode_cons, List.flatMap_cons, ← ih hrest]
      by_cases hc : c.toNat < 128
      · rw [utf8_ascii hc, putCharacter_ascii hc, List.singleton_append]
        by_cases hamp : UInt8.ofNat c.toNat = 0x26
        · have hchar : c = '&' := by
            have hnat := congrArg UInt8.toNat hamp
            rw [UInt8.toNat_ofNat', Nat.mod_eq_of_lt (by omega)] at hnat
            rw [← Char.ofNat_toNat c, hnat]
            rfl
          have hno : stringEqual (encode s) (text "#x") = false := by
            -- otherwise `#x` follows in `s` as well
            by_contra hyes
            rw [Bool.not_eq_false] at hyes
            obtain ⟨t, ht⟩ := List.isPrefixOf_iff_prefix.mp hyes
            obtain ⟨s', rfl, hs'⟩ := encode_eq_cons (b := 0x23) (l := 0x78 :: t) ht.symm (by decide)
            obtain ⟨s'', rfl, -⟩ := encode_eq_cons hs'.symm (by decide)
            exact h ⟨[], s'', by rw [hchar]; rfl⟩
          rw [hamp]
          cases hs : encode s with
          | nil => rfl
          | cons b l =>
              rw [hs] at hno
              unfold putString
              rw [if_neg (fun h => absurd h.1 Bool.false_ne_true),
                if_neg (by rw [hno]; exact fun h => absurd h.2 Bool.false_ne_true)]
              rfl
        · exact putString_cons hamp _
      · obtain ⟨lead, more, hm⟩ := exists_multibyte (c := c) (by omega)
        rw [hm.bytes, hm.putCharacter]
        exact putString_append hm.high _

theorem stringEqual_singleton {b q : Byte} (h : b ≠ q) (l : List Byte) :
    stringEqual (b :: l) [q] = false := by
  show ([q].isPrefixOf (b :: l)) = false
  simp [List.isPrefixOf, Ne.symm h]

/-- What is written between quotes is read up to the second of them. -/
theorem readKept_put {q : Byte} (hq : q = 0x22 ∨ q = 0x27) (s : List Char) (rest : List Byte)
    {fuel : Nat} (hf : s.length < fuel) :
    readKept .utf8 [q] fuel (.at (s.flatMap putCharacter ++ q :: rest)) =
      .ok (encode s, .at (q :: rest)) := by
  induction s generalizing fuel with
  | nil =>
      obtain ⟨n, rfl⟩ := Nat.exists_eq_succ_of_ne_zero (by simp at hf; omega : fuel ≠ 0)
      unfold readKept
      exact if_pos (by simp [stringEqual])
  | cons c s ih =>
      obtain ⟨n, rfl⟩ := Nat.exists_eq_succ_of_ne_zero (by omega : fuel ≠ 0)
      rw [List.length_cons] at hf
      obtain ⟨b, l, hcode, hget⟩ :=
        (code_putCharacter c).reads (s.flatMap putCharacter ++ q :: rest)
      obtain ⟨h22, h27, -⟩ := (code_putCharacter c).head _ _ _ hcode
      have hne : b ≠ q := by
        rcases hq with rfl | rfl
        · exact h22
        · exact h27
      rw [List.flatMap_cons, List.append_assoc, hcode]
      unfold readKept
      rw [stringEqual_singleton hne, if_neg Bool.false_ne_true, hget]
      show (readKept .utf8 [q] n _ >>= _) = _
      rw [ih (by omega)]
      exact congrArg (fun t => Except.ok (t, Ptr.at (q :: rest))) (encode_cons c s).symm

/-- No character but the space is written as something that begins with white space. -/
theorem putCharacter_head {c : Char} (hc : c ≠ ' ') {rest l : List Byte} {b : Byte}
    (h : putCharacter c ++ rest = b :: l) : isWhiteSpace b = false := by
  by_cases ha : c.toNat < 128
  · have hall : ∀ n : Fin 128, n ≠ 32 →
        (putChar (UInt8.ofNat n)).head?.any isWhiteSpace = false := by decide
    have hplain := hall ⟨c.toNat, ha⟩ fun h32 => hc (by
      rw [← Char.ofNat_toNat c, show c.toNat = 32 from congrArg Fin.val h32])
    rwa [putCharacter_ascii_head ha h] at hplain
  · obtain ⟨lead, more, hm⟩ := exists_multibyte (c := c) (by omega)
    rw [hm.putCharacter] at h
    obtain ⟨rfl, -⟩ := List.cons.inj h
    have hlead := hm.high lead List.mem_cons_self
    unfold isWhiteSpace
    simp only [UInt8.le_iff_toNat_le, Bool.or_eq_false_iff, Bool.and_eq_false_iff,
      decide_eq_false_iff_not]
    refine ⟨Or.inr ?_, ?_⟩
    · exact Nat.not_le.mpr (Nat.lt_of_lt_of_le (by decide) hlead)
    · exact ne_of_high hlead (by decide)

/-- What is written between tags is read up to the next one, with its white space condensed. -/
theorem readCondensed_put (s : List Char) (rest : List Byte) {fuel : Nat} (hf : s.length < fuel)
    (space : Bool) :
    readCondensed .utf8 (text "<") fuel space (.at (s.flatMap putCharacter ++ 0x3C :: rest)) =
      .ok (encode (squeeze space s), .at (0x3C :: rest)) := by
  induction s generalizing fuel space with
  | nil =>
      obtain ⟨n, rfl⟩ := Nat.exists_eq_succ_of_ne_zero (by simp at hf; omega : fuel ≠ 0)
      rfl
  | cons c s ih =>
      obtain ⟨n, rfl⟩ := Nat.exists_eq_succ_of_ne_zero (by omega : fuel ≠ 0)
      rw [List.length_cons] at hf
      by_cases hc : c = ' '
      · subst hc
        show readCondensed .utf8 (text "<") n true
          (.at (s.flatMap putCharacter ++ 0x3C :: rest)) = _
        rw [ih (by omega)]
        rfl
      · obtain ⟨b, l, hcode, hget⟩ :=
          (code_putCharacter c).reads (s.flatMap putCharacter ++ 0x3C :: rest)
        obtain ⟨-, -, hlt⟩ := (code_putCharacter c).head _ _ _ hcode
        have hsqueeze : squeeze space (c :: s) =
            (if space then [' '] else []) ++ c :: squeeze false s := if_neg hc
        rw [List.flatMap_cons, List.append_assoc, hcode]
        unfold readCondensed
        rw [show text "<" = [0x3C] from rfl, stringEqual_singleton hlt,
          if_neg Bool.false_ne_true, putCharacter_head hc hcode, if_neg Bool.false_ne_true, hget]
        show (readCondensed .utf8 [0x3C] n false _ >>= _) = _
        rw [show [0x3C] = text "<" from rfl, ih (by omega) false, hsqueeze, encode_append,
          encode_cons]
        cases space <;> rfl

/-- Only the byte order marks are written as such. -/
theorem isMark_putCharacter {c : Char} (hc : isMarkCharacter c = false) (rest : List Byte) :
    isMark (putCharacter c ++ rest) = false := by
  have hmark : ∀ m : Char, isMarkCharacter m = true → ∀ x y : Byte,
      String.utf8EncodeChar m = [0xEF, x, y] →
        stringEqual (putCharacter c ++ rest) [0xEF, x, y] = false := by
    intro m hm x y hbytes
    by_contra hyes
    rw [Bool.not_eq_false] at hyes
    obtain ⟨t, ht⟩ := List.isPrefixOf_iff_prefix.mp hyes
    -- then all of `c` is these three bytes
    have hsame : String.utf8EncodeChar c = [0xEF, x, y] := by
      by_cases ha : c.toNat < 128
      · have hall : ∀ n : Fin 128, (putChar (UInt8.ofNat n)).head? ≠ some 0xEF := by decide
        exact absurd (putCharacter_ascii_head ha ht.symm) (hall ⟨c.toNat, ha⟩)
      · obtain ⟨lead, more, hmulti⟩ := exists_multibyte (c := c) (by omega)
        rw [hmulti.putCharacter] at ht
        obtain ⟨rfl, hmore⟩ := List.cons.inj ht
        have hlen : more.length = 2 := by
          have := hmulti.length
          rw [show utf8ByteTable 0xEF = 3 from rfl] at this
          omega
        rw [hmulti.bytes]
        obtain ⟨u, v, rfl⟩ := List.length_eq_two.mp hlen
        obtain ⟨rfl, hv⟩ := List.cons.inj hmore
        obtain ⟨rfl, -⟩ := List.cons.inj hv
        rfl
    have hcm : [c] = [m] := encode_injective (by
      rw [encode_cons, encode_cons, hsame, hbytes])
    rw [List.cons.inj hcm |>.1] at hc
    exact absurd (hc.symm.trans hm) Bool.false_ne_true
  unfold isMark
  rw [hmark (Char.ofNat 0xFEFF) (by decide) _ _ (by decide),
    hmark (Char.ofNat 0xFFFE) (by decide) _ _ (by decide),
    hmark (Char.ofNat 0xFFFF) (by decide) _ _ (by decide)]
  rfl

theorem skipWhite_put (s : List Char) (rest : List Byte) :
    skipWhite .utf8 0 (s.flatMap putCharacter ++ 0x3C :: rest) =
      (trimStart s).flatMap putCharacter ++ 0x3C :: rest := by
  induction s with
  | nil => rfl
  | cons c s ih =>
      unfold trimStart
      rw [List.dropWhile_cons]
      by_cases hspace : c = ' '
      · subst hspace
        exact ih
      by_cases hmark : isMarkCharacter c = true
      · rw [if_pos (by rw [hmark, Bool.or_true])]
        unfold isMarkCharacter at hmark
        simp only [Bool.or_eq_true, decide_eq_true_eq] at hmark
        rcases hmark with (hc | hc) | hc
        all_goals
          rw [← Char.ofNat_toNat c, hc]
          exact ih
      · rw [Bool.not_eq_true] at hmark
        rw [if_neg (by simp [hspace, hmark]), List.flatMap_cons, List.append_assoc]
        have hnomark := isMark_putCharacter hmark (s.flatMap putCharacter ++ 0x3C :: rest)
        obtain ⟨b, l, hcode, -⟩ :=
          (code_putCharacter c).reads (s.flatMap putCharacter ++ 0x3C :: rest)
        rw [hcode] at hnomark ⊢
        unfold skipWhite
        rw [if_neg (fun h => absurd (hnomark.symm.trans h.2) Bool.false_ne_true),
          putCharacter_head hspace hcode, if_neg Bool.false_ne_true]

theorem length_le_put (s : List Char) : s.length ≤ (s.flatMap putCharacter).length := by
  induction s with
  | nil => exact Nat.le_refl 0
  | cons c s ih =>
      obtain ⟨b, l, hcode, -⟩ := (code_putCharacter c).reads []
      rw [List.append_nil] at hcode
      rw [List.flatMap_cons, List.length_append, hcode, List.length_cons, List.length_cons]
      omega

/-- `ReadText` of a text between quotes. -/
theorem readText_quoted {q : Byte} (hq : q = 0x22 ∨ q = 0x27) (s : List Char) (rest : List Byte) :
    readText .utf8 (.at (s.flatMap putCharacter ++ q :: rest)) false [q] =
      .ok (encode s, .at (q :: rest)) := by
  refine readKept_put hq s rest ?_
  have hle := length_le_put s
  show s.length < (s.flatMap putCharacter ++ q :: rest).length
  rw [List.length_append, List.length_cons]
  omega

/-- `ReadText` of a text between tags. -/
theorem readText_condensed (s : List Char) (rest : List Byte) :
    readText .utf8 (.at (s.flatMap putCharacter ++ 0x3C :: rest)) true (text "<") =
      .ok (encode (condensed s), .at (0x3C :: rest)) := by
  have hskip : skipWhiteSpace .utf8 (.at (s.flatMap putCharacter ++ 0x3C :: rest)) =
      .ok (.at ((trimStart s).flatMap putCharacter ++ 0x3C :: rest)) := by
    rw [← skipWhite_put]
    cases s.flatMap putCharacter <;> rfl
  unfold readText
  rw [hskip]
  refine readCondensed_put (trimStart s) rest ?_ false
  have hle := length_le_put (trimStart s)
  show (trimStart s).length < ((trimStart s).flatMap putCharacter ++ 0x3C :: rest).length
  rw [List.length_append, List.length_cons]
  omega

end NanomsgDemo.Config

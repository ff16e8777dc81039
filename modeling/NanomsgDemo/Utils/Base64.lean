import NanomsgDemo.Lib.Radix64
import NanomsgDemo.Lib.Rounding
import NanomsgDemo.Utils.FileUtils

/-!
# Base 64

`libutils/ext/base64.c` and the class on top of it, `libutils/lw_base64.cpp`. Both
directions allocate first, by a formula of their own, and then convert in a loop that
does not know the size; both are modelled as what is written, byte after byte, and as
whether it fits. An index into the output stays below `2 ^ 32` as long as the output
does.

The two formulas are not what the loops need. The length `base64Encode` returns is
right for multiples of three bytes only, and below `2 ^ 30` only; the size
`base64Decode` allocates goes through `float`.
-/

namespace NanomsgDemo.Utils

open Net Buffers Radix64 Rounding

/-! ## The source -/

/-- `alphabet`, a string literal with its NUL. -/
def alphabet : List Byte :=
  text "ABCDEFGHIJKLMNOPQRSTUVWXYZabcdefghijklmnopqrstuvwxyz0123456789+/" ++ [0]

/-- `alphabet[i]`. -/
def digit (i : Nat) : Byte := alphabet.getD i 0

/--
`decoder[c]`, `none` where `inalphabet[c]` is not set. The loop that fills the two
tables begins at the NUL, which so becomes a character of value 64.
-/
def decoder (c : Byte) : Option Nat := alphabet.idxOf? c

/-- Variables of `_base64Encode`. -/
structure Encoding where
  bits : Nat
  charCount : Nat
  output : List Byte

/-- The loop of `_base64Encode`. -/
def encodeLoop (s : Encoding) : List Byte → Encoding
  | [] => s
  | c :: input =>
      let bits := s.bits ||| c.toNat
      let charCount := s.charCount + 1
      if charCount = 3 then
        encodeLoop
          ⟨0, 0, s.output ++ [digit (bits >>> 18 &&& 0x3f), digit (bits >>> 12 &&& 0x3f),
            digit (bits >>> 6 &&& 0x3f), digit (bits &&& 0x3f)]⟩ input
      else encodeLoop ⟨bits <<< 8, charCount, s.output⟩ input

/-- `_base64Encode` after its loop. -/
def encodeEnd (s : Encoding) : List Byte :=
  let output :=
    if s.charCount ≠ 0 then
      let bits := if s.charCount = 1 then s.bits <<< 8 else s.bits
      s.output ++ [digit (bits >>> 18 &&& 0x3f), digit (bits >>> 12 &&& 0x3f),
        if 1 < s.charCount then digit (bits >>> 6 &&& 0x3f) else chr '=', chr '=']
    else s.output
  output ++ [0]

/-- `_base64Encode`: what it writes. -/
def encodeChars (input : List Byte) : List Byte := encodeEnd (encodeLoop ⟨0, 0, []⟩ input)

/-- Variables of `_base64Decode` after its loop: `padded` is `c == '='`. -/
structure Decoding where
  bits : Nat
  charCount : Nat
  output : List Byte
  padded : Bool
  unread : List Byte

/-- The loop of `_base64Decode`. -/
def decodeLoop (bits charCount : Nat) (output : List Byte) : List Byte → Decoding
  | [] => ⟨bits, charCount, output, false, []⟩
  | c :: input =>
      if c = chr '=' then ⟨bits, charCount, output, true, c :: input⟩
      else
        match decoder c with
        | none => decodeLoop bits charCount output input
        | some v =>
            let bits := bits + v
            let charCount := charCount + 1
            if charCount = 4 then
              decodeLoop 0 0 (output ++ [UInt8.ofNat (bits >>> 16),
                UInt8.ofNat (bits >>> 8 &&& 0xff), UInt8.ofNat (bits &&& 0xff)]) input
            else decodeLoop (bits <<< 6) charCount output input

/-- `_base64Decode` after its loop: what has been written, and `errors`. -/
def decodeEnd (s : Decoding) : List Byte × Nat :=
  if s.padded then
    match s.charCount with
    | 1 => (s.output, 1)
    | 2 => (s.output ++ [UInt8.ofNat (s.bits >>> 10)], 0)
    | 3 => (s.output ++ [UInt8.ofNat (s.bits >>> 16), UInt8.ofNat (s.bits >>> 8 &&& 0xff)], 0)
    | _ => (s.output, 0)
  else if s.unread ≠ [] ∧ s.charCount ≠ 0 then (s.output, 1)
  else (s.output, 0)

/-- `_base64Decode`. -/
def decodeChars (input : List Byte) : List Byte × Nat := decodeEnd (decodeLoop 0 0 [] input)

/--
`inLength * 3.0f / 4.0f + 1` as a size. The product is rounded to the 24 bits of a
`float` after the conversion of `inLength` was; dividing by four is exact, so the sum is
rounded as its fourfold is.
-/
def mallocSize (inLength : Nat) : Nat :=
  roundTo 24 (roundTo 24 (3 * roundTo 24 inLength) + 4) / 4

/-- `base64Encode`; `mem` is whether `malloc` delivers. -/
def base64Encode (mem : Bool) (input : List Byte) : Option Passed :=
  let outLength := input.length * 4 % 2 ^ 32 / 3 + (if 0 < input.length % 3 then 4 else 0)
  if mem then
    (fill (outLength + 1) (encodeChars input)).map fun out => ⟨some out, outLength⟩
  else some ⟨none, outLength⟩

/-- `base64Decode`. -/
def base64Decode (mem : Bool) (input : List Byte) : Option Passed :=
  if mem then
    let (output, errors) := decodeChars input
    (fill (mallocSize input.length) output).map fun out =>
      if 0 < errors then ⟨none, 0⟩ else ⟨some out, output.length⟩
  else some ⟨none, 0⟩

namespace Base64

/-- `Base64::encrypt`: what the callback is called with. -/
def encrypt (mem : Bool) (data : Bytes) : Option Passed := base64Encode mem data.bytes

/-- `Base64::decrypt`: `out[len] = 0`, and what the callback is called with. -/
def decrypt (mem : Bool) (data : Bytes) : Option Passed :=
  (base64Decode mem data.bytes).bind fun p =>
    match p.out with
    | none => none
    | some out => (store out p.len (some 0)).map fun out => ⟨some out, p.len⟩

/-- `Base64::decrypt` of a file. -/
def decryptFile (mem : Bool) (disk : Disk) (filename : CString) : Option Passed :=
  (getDataFromFile disk filename).bind (decrypt mem)

end Base64

/-! ## What the loops do -/

theorem and_digit (bits : Nat) : bits &&& 0x3f = bits % 64 :=
  Nat.and_two_pow_sub_one_eq_mod bits 6

theorem shift_or (bits : Nat) (c : Byte) : bits <<< 8 ||| c.toNat = bits * 2 ^ 8 + c.toNat := by
  rw [← Nat.shiftLeft_add_eq_or_of_lt c.toNat_lt, Nat.shiftLeft_eq]

/-- Three bytes are written with four characters. -/
theorem encodeLoop_three (output : List Byte) (a b c : Byte) (input : List Byte) :
    encodeLoop ⟨0, 0, output⟩ (a :: b :: c :: input) =
      encodeLoop ⟨0, 0, output ++ [digit (group a b c / 2 ^ 18 % 64),
        digit (group a b c / 2 ^ 12 % 64), digit (group a b c / 2 ^ 6 % 64),
        digit (group a b c % 64)]⟩ input := by
  have hbits : ((0 ||| a.toNat) <<< 8 ||| b.toNat) <<< 8 ||| c.toNat = group a b c := by
    rw [shift_or, shift_or, Nat.zero_or]
    unfold group
    omega
  simp only [encodeLoop, Nat.reduceAdd, Nat.reduceEqDiff, reduceIte, hbits, and_digit,
    Nat.shiftRight_eq_div_pow]

theorem encodeLoop_eq (output d : List Byte) :
    encodeEnd (encodeLoop ⟨0, 0, output⟩ d) = output ++ encode digit (chr '=') d ++ [0] := by
  induction d using encode.induct generalizing output with
  | case1 => simp [encodeLoop, encodeEnd, encode]
  | case2 a =>
      have hbits : a.toNat <<< 8 <<< 8 = group a 0 0 := by
        rw [Nat.shiftLeft_eq, Nat.shiftLeft_eq]
        unfold group
        simp only [UInt8.toNat_zero]
        omega
      simp [encodeLoop, encodeEnd, encode, hbits, and_digit, Nat.shiftRight_eq_div_pow]
  | case3 a b =>
      have hbits : (a.toNat <<< 8 ||| b.toNat) <<< 8 = group a b 0 := by
        rw [shift_or, Nat.shiftLeft_eq]
        unfold group
        simp only [UInt8.toNat_zero]
        omega
      simp [encodeLoop, encodeEnd, encode, hbits, and_digit, Nat.shiftRight_eq_div_pow]
  | case4 a b c rest ih =>
      rw [encodeLoop_three, ih]
      simp [encode]

theorem encodeChars_eq (d : List Byte) : encodeChars d = encode digit (chr '=') d ++ [0] :=
  encodeLoop_eq [] d

theorem digit_spec : ∀ i < 64, digit i ≠ chr '=' ∧ decoder (digit i) = some i := by decide

theorem decodeLoop_digit {i : Nat} (hi : i < 64) (bits charCount : Nat) (output input : List Byte) :
    decodeLoop bits charCount output (digit i :: input) =
      if charCount + 1 = 4 then
        decodeLoop 0 0 (output ++ [UInt8.ofNat ((bits + i) >>> 16),
          UInt8.ofNat ((bits + i) >>> 8 &&& 0xff), UInt8.ofNat ((bits + i) &&& 0xff)]) input
      else decodeLoop ((bits + i) <<< 6) (charCount + 1) output input := by
  obtain ⟨hpad, hdecoder⟩ := digit_spec i hi
  rw [decodeLoop, if_neg hpad, hdecoder]

theorem decodeLoop_pad (bits charCount : Nat) (output input : List Byte) :
    decodeLoop bits charCount output (chr '=' :: input) =
      ⟨bits, charCount, output, true, chr '=' :: input⟩ := if_pos rfl

/-- The bytes of a group, from its bits. -/
theorem bytes_group (a b c : Byte) :
    UInt8.ofNat (group a b c >>> 16) = a ∧ UInt8.ofNat (group a b c >>> 8 &&& 0xff) = b ∧
      UInt8.ofNat (group a b c &&& 0xff) = c := by
  have ha := a.toNat_lt
  have hb := b.toNat_lt
  have hc := c.toNat_lt
  have hand : ∀ n, n &&& 0xff = n % 256 := fun n => Nat.and_two_pow_sub_one_eq_mod n 8
  simp only [Nat.shiftRight_eq_div_pow, hand]
  refine ⟨?_, ?_, ?_⟩ <;>
    · apply UInt8.toNat_inj.mp
      rw [UInt8.toNat_ofNat']
      unfold group
      omega

/-- Four digits are written as three bytes. -/
theorem decodeLoop_group {bits : Nat} (h : bits < 2 ^ 24) (output input : List Byte) :
    decodeLoop 0 0 output (digit (bits / 2 ^ 18 % 64) :: digit (bits / 2 ^ 12 % 64) ::
        digit (bits / 2 ^ 6 % 64) :: digit (bits % 64) :: input) =
      decodeLoop 0 0 (output ++ [UInt8.ofNat (bits >>> 16), UInt8.ofNat (bits >>> 8 &&& 0xff),
        UInt8.ofNat (bits &&& 0xff)]) input := by
  have hlt : ∀ n, n % 64 < 64 := fun n => Nat.mod_lt n (by decide)
  simp only [decodeLoop_digit (hlt _), Nat.reduceAdd, Nat.reduceEqDiff, reduceIte, Nat.zero_add,
    Nat.shiftLeft_eq, sum_digits h]

/-- Decoding gives back what was encoded. -/
theorem decodeLoop_encode (output d : List Byte) :
    decodeEnd (decodeLoop 0 0 output (encode digit (chr '=') d)) = (output ++ d, 0) := by
  have hlt : ∀ n, n % 64 < 64 := fun n => Nat.mod_lt n (by decide)
  induction d using encode.induct generalizing output with
  | case1 => simp [encode, decodeLoop, decodeEnd]
  | case2 a =>
      have hgroup := group_lt a 0 0
      have hbits :
          ((group a 0 0 / 2 ^ 18 % 64 * 2 ^ 6 + group a 0 0 / 2 ^ 12 % 64) * 2 ^ 6) >>> 10 =
            group a 0 0 >>> 16 := by
        simp only [Nat.shiftRight_eq_div_pow]
        omega
      simp only [encode, decodeLoop_digit (hlt _), Nat.reduceAdd, Nat.reduceEqDiff, reduceIte,
        Nat.zero_add, Nat.shiftLeft_eq, decodeLoop_pad, decodeEnd, hbits, (bytes_group a 0 0).1]
  | case3 a b =>
      have hgroup := group_lt a b 0
      have hlow : group a b 0 % 64 = 0 := by
        unfold group
        simp only [UInt8.toNat_zero]
        omega
      have hbits : ((group a b 0 / 2 ^ 18 % 64 * 2 ^ 6 + group a b 0 / 2 ^ 12 % 64) * 2 ^ 6 +
          group a b 0 / 2 ^ 6 % 64) * 2 ^ 6 = group a b 0 := by
        have := sum_digits hgroup
        omega
      simp only [encode, decodeLoop_digit (hlt _), Nat.reduceAdd, Nat.reduceEqDiff, reduceIte,
        Nat.zero_add, Nat.shiftLeft_eq, decodeLoop_pad, decodeEnd, hbits, (bytes_group a b 0).1,
        (bytes_group a b 0).2.1]
  | case4 a b c rest ih =>
      obtain ⟨ha, hb, hc⟩ := bytes_group a b c
      simp only [encode]
      rw [decodeLoop_group (group_lt a b c), ha, hb, hc, ih]
      simp

theorem decodeChars_encode (d : List Byte) : decodeChars (encode digit (chr '=') d) = (d, 0) :=
  decodeLoop_encode [] d

/-! ## How much is decoded -/

/-- How many characters of the alphabet there are before the first `=`. -/
def charsBefore (input : List Byte) : Nat :=
  (input.takeWhile (· ≠ chr '=')).countP fun c => (decoder c).isSome

/-- The bytes of that many characters. A `=` adds those of an incomplete group. -/
def decodedLength (input : List Byte) : Nat :=
  3 * (charsBefore input / 4) + (if chr '=' ∈ input then charsBefore input % 4 - 1 else 0)

/-- A `=` after a single character of a group. -/
def Incomplete (input : List Byte) : Prop := chr '=' ∈ input ∧ charsBefore input % 4 = 1

theorem charsBefore_pad (input : List Byte) : charsBefore (chr '=' :: input) = 0 := rfl

theorem charsBefore_cons {c : Byte} (h : c ≠ chr '=') (input : List Byte) :
    charsBefore (c :: input) = charsBefore input + if (decoder c).isSome then 1 else 0 := by
  unfold charsBefore
  rw [List.takeWhile_cons_of_pos (by simp [h]), List.countP_cons]

theorem charsBefore_le (input : List Byte) : charsBefore input ≤ input.length :=
  Nat.le_trans List.countP_le_length (List.takeWhile_sublist _).length_le

/-- Without a `=` all of the input is read. -/
theorem decodeLoop_padded (bits charCount : Nat) (output input : List Byte) :
    let s := decodeLoop bits charCount output input
    (s.padded = true ↔ chr '=' ∈ input) ∧ (s.padded = false → s.unread = []) := by
  induction input generalizing bits charCount output with
  | nil => simp [decodeLoop]
  | cons c input ih =>
      unfold decodeLoop
      by_cases hpad : c = chr '='
      · simp [hpad]
      · have hmem : chr '=' ∈ c :: input ↔ chr '=' ∈ input := by
          rw [List.mem_cons]
          exact or_iff_right fun h => hpad h.symm
        rw [if_neg hpad, hmem]
        cases decoder c with
        | none => exact ih bits charCount output
        | some v =>
            dsimp only
            split
            · exact ih _ _ _
            · exact ih _ _ _

/-- `char_count` is what the number of characters leaves over from groups of four. -/
theorem decodeLoop_counts {charCount : Nat} (h : charCount < 4) (bits : Nat)
    (output input : List Byte) :
    let s := decodeLoop bits charCount output input
    s.charCount = (charCount + charsBefore input) % 4 ∧
      s.output.length = output.length + 3 * ((charCount + charsBefore input) / 4) := by
  induction input generalizing bits charCount output with
  | nil =>
      show charCount = (charCount + 0) % 4 ∧
        output.length = output.length + 3 * ((charCount + 0) / 4)
      omega
  | cons c input ih =>
      by_cases hpad : c = chr '='
      · subst hpad
        rw [decodeLoop_pad, charsBefore_pad]
        dsimp only
        omega
      · rw [decodeLoop, if_neg hpad, charsBefore_cons hpad]
        cases decoder c with
        | none => exact ih h bits output
        | some v =>
            dsimp only
            split
            · -- a group is complete
              obtain ⟨hcount, hlen⟩ := ih (by omega : 0 < 4) 0
                (output ++ [UInt8.ofNat ((bits + v) >>> 16),
                  UInt8.ofNat ((bits + v) >>> 8 &&& 0xff), UInt8.ofNat ((bits + v) &&& 0xff)])
              rw [hcount, hlen]
              simp only [List.length_append, List.length_cons, List.length_nil, Option.isSome_some,
                if_true]
              omega
            · obtain ⟨hcount, hlen⟩ := ih (by omega : charCount + 1 < 4) ((bits + v) <<< 6) output
              rw [hcount, hlen]
              simp only [Option.isSome_some, if_true]
              omega

theorem decodeEnd_of_padded {s : Decoding} (hpad : s.padded = true) (h : s.charCount < 4) :
    (decodeEnd s).1.length = s.output.length + (s.charCount - 1) ∧
      (0 < (decodeEnd s).2 ↔ s.charCount = 1) := by
  unfold decodeEnd
  rw [if_pos hpad]
  have hcases : s.charCount = 0 ∨ s.charCount = 1 ∨ s.charCount = 2 ∨ s.charCount = 3 := by omega
  rcases hcases with hc | hc | hc | hc <;> simp [hc]

/-- At the end of the input an incomplete group is dropped without an error. -/
theorem decodeEnd_of_not_padded {s : Decoding} (hpad : s.padded = false) (hread : s.unread = []) :
    decodeEnd s = (s.output, 0) := by
  simp [decodeEnd, hpad, hread]

theorem decodeChars_spec (input : List Byte) :
    (decodeChars input).1.length = decodedLength input ∧
      (0 < (decodeChars input).2 ↔ Incomplete input) := by
  obtain ⟨hpad, hread⟩ := decodeLoop_padded 0 0 [] input
  obtain ⟨hcount, hlen⟩ := decodeLoop_counts (by omega : 0 < 4) 0 [] input
  rw [Nat.zero_add] at hcount hlen
  rw [List.length_nil, Nat.zero_add] at hlen
  unfold decodeChars decodedLength Incomplete
  by_cases hmem : chr '=' ∈ input
  · have hlt := Nat.mod_lt (charsBefore input) (by omega : 4 > 0)
    obtain ⟨hout, herrors⟩ := decodeEnd_of_padded (hpad.mpr hmem) (by omega)
    rw [hout, herrors, hlen, hcount, if_pos hmem]
    exact ⟨rfl, (and_iff_right hmem).symm⟩
  · have hfalse : (decodeLoop 0 0 [] input).padded = false := by
      rw [Bool.eq_false_iff]
      intro h
      exact hmem (hpad.mp h)
    rw [decodeEnd_of_not_padded hfalse (hread hfalse), hlen, if_neg hmem]
    exact ⟨rfl, iff_of_false (Nat.lt_irrefl 0) fun h => hmem h.1⟩

theorem decodedLength_le (input : List Byte) : 4 * decodedLength input ≤ 3 * input.length := by
  have hle := charsBefore_le input
  unfold decodedLength
  split <;> omega

/-- Up to 16 MiB the rounding of the size does no harm. -/
theorem decodedLength_lt_mallocSize {input : List Byte} (h : input.length < 2 ^ 24) :
    decodedLength input < mallocSize input.length := by
  have hle := decodedLength_le input
  have hlength : input.length ≤ roundTo 24 input.length :=
    le_roundTo (by omega) (representable_of_lt h) (Nat.le_refl _)
  -- a multiple of four of this size is a `float`
  have hfloat : ∀ n < 2 ^ 24, Representable 24 (4 * n) := fun n hn =>
    ⟨n, 2, hn, Nat.mul_comm 4 n⟩
  have hproduct : 4 * decodedLength input ≤ roundTo 24 (3 * roundTo 24 input.length) :=
    le_roundTo (by omega) (hfloat _ (by omega)) (by omega)
  have hsum : 4 * (decodedLength input + 1) ≤
      roundTo 24 (roundTo 24 (3 * roundTo 24 input.length) + 4) :=
    le_roundTo (by omega) (hfloat _ (by omega)) (by omega)
  unfold mallocSize
  omega

theorem base64Decode_true (input : List Byte) :
    base64Decode true input =
      (fill (mallocSize input.length) (decodeChars input).1).map fun out =>
        if 0 < (decodeChars input).2 then ⟨none, 0⟩
        else ⟨some out, (decodeChars input).1.length⟩ := rfl

namespace Base64

/-! ## Arbitrary input -/

/-- The callback is called with a buffer of more than `len` bytes, the terminating NUL at `len`. -/
def Terminated (r : Option Passed) : Prop :=
  ∃ out len, r = some ⟨some out, len⟩ ∧ len < out.length ∧ out[len]? = some (some 0)

/-- The decoder reports no error, and what it writes leaves room for the NUL. -/
def Decodable (input : List Byte) : Prop :=
  ¬ Incomplete input ∧ decodedLength input < mallocSize input.length

theorem decrypt_of_decodable {data : Bytes} (h : Decodable data.bytes) :
    ∃ rest, decrypt true data = some
      ⟨some ((decodeChars data.bytes).1.map some ++ some 0 :: rest),
        (decodeChars data.bytes).1.length⟩ := by
  obtain ⟨herrors, hlt⟩ := h
  obtain ⟨hlen, herr⟩ := decodeChars_spec data.bytes
  rw [← hlen] at hlt
  rw [← herr] at herrors
  -- the buffer goes on behind what is decoded
  obtain ⟨k, hk⟩ := Nat.exists_eq_add_of_lt hlt
  have hfill := fill_of_le (Nat.le_of_lt hlt)
  rw [show mallocSize data.bytes.length - (decodeChars data.bytes).1.length = k + 1 by omega,
    newBuffer, List.replicate_succ] at hfill
  refine ⟨newBuffer k, ?_⟩
  unfold decrypt
  rw [base64Decode_true, hfill, Option.map_some, Option.bind_some, if_neg herrors]
  have hstore : store ((decodeChars data.bytes).1.map some ++ none :: newBuffer k)
      ((decodeChars data.bytes).1.map some).length (some 0) =
        some ((decodeChars data.bytes).1.map some ++ some 0 :: newBuffer k) := store_append
  rw [List.length_map] at hstore
  dsimp only
  rw [newBuffer] at hstore ⊢
  rw [hstore, Option.map_some]

theorem decodable_of_decrypt {mem : Bool} {data : Bytes} {p : Passed}
    (h : decrypt mem data = some p) : mem = true ∧ Decodable data.bytes := by
  obtain ⟨hlen, herr⟩ := decodeChars_spec data.bytes
  obtain ⟨q, hq, hp⟩ := Option.bind_eq_some_iff.mp h
  cases mem with
  | false =>
      -- the NUL is written through a null pointer
      cases hq
      cases hp
  | true =>
      rw [base64Decode_true] at hq
      obtain ⟨out, hfill, hout⟩ := Option.map_eq_some_iff.mp hq
      subst hout
      have herrors : ¬ 0 < (decodeChars data.bytes).2 := by
        intro herrors
        rw [if_pos herrors] at hp
        cases hp
      rw [if_neg herrors] at hp
      refine ⟨rfl, ?_, ?_⟩
      · rw [← herr]
        exact herrors
      · have hsize : out.length = mallocSize data.bytes.length := by
          rw [length_storeAll hfill, newBuffer_length]
        rw [← hlen, ← hsize]
        by_contra hge
        dsimp only at hp
        rw [store_eq_none (by omega)] at hp
        cases hp

/--
**When `decrypt` is safe.**

The NUL gets its place behind the decoded bytes exactly when the allocation succeeds,
no `=` comes after the first character of a group, and the decoded bytes are fewer
than were allocated. A file is no different, if its size can be told.
-/
theorem decrypt_terminated_iff (mem : Bool) (data : Bytes) (disk : Disk) (filename : CString) :
    (Terminated (decrypt mem data) ↔ mem = true ∧ Decodable data.bytes) ∧
    (Terminated (decryptFile mem disk filename) ↔
      ∃ d, getDataFromFile disk filename = some d ∧ mem = true ∧ Decodable d.bytes) := by
  have hiff : ∀ d : Bytes, Terminated (decrypt mem d) ↔ mem = true ∧ Decodable d.bytes := by
    intro d
    constructor
    · intro h
      obtain ⟨out, len, hres, -⟩ := h
      exact decodable_of_decrypt hres
    · intro h
      obtain ⟨hmem, hdec⟩ := h
      subst hmem
      obtain ⟨rest, hres⟩ := decrypt_of_decodable hdec
      refine ⟨_, _, hres, ?_, ?_⟩
      · simp
      · simp
  refine ⟨hiff data, ?_⟩
  unfold decryptFile
  cases hfile : getDataFromFile disk filename with
  | none =>
      refine iff_of_false ?_ ?_
      · intro h
        obtain ⟨_, _, hres, -⟩ := h
        cases hres
      · intro h
        obtain ⟨_, hd, -⟩ := h
        cases hd
  | some d => simp [hiff d]

/-- Below 16 MiB only the place of the first `=` matters. -/
theorem decodable_iff_of_lt {input : List Byte} (h : input.length < 2 ^ 24) :
    Decodable input ↔ ¬ Incomplete input :=
  and_iff_left (decodedLength_lt_mallocSize h)

/-- `A=`: the decoder gives up, and the NUL goes to the null pointer it returns. -/
theorem not_decrypt_terminated :
    decrypt true ⟨text "A=", by decide⟩ = none := by decide

/-! ## There and back -/

/-- The encoding of some bytes, where its length is an `unsigned int`. -/
def encoded (d : Bytes) (h : 4 * ((d.bytes.length + 2) / 3) < 2 ^ 32) : Bytes :=
  ⟨encode digit (chr '=') d.bytes, by rw [length_encode]; exact h⟩

/-- The callback of `encrypt` is called with the encoding and its length. -/
def Encrypts (mem : Bool) (d : Bytes) : Prop :=
  ∃ out, encrypt mem d = some ⟨some out, 4 * ((d.bytes.length + 2) / 3)⟩ ∧
    out.take (4 * ((d.bytes.length + 2) / 3)) = (encode digit (chr '=') d.bytes).map some

/-- The callback of `decrypt` is called with these bytes and their length. -/
def Decrypts (mem : Bool) (e d : Bytes) : Prop :=
  ∃ out, decrypt mem e = some ⟨some out, d.bytes.length⟩ ∧
    out.take d.bytes.length = d.bytes.map some

/-- The length `base64Encode` returns is the one it should. -/
theorem outLength_eq_iff {n : Nat} (h : 4 * ((n + 2) / 3) < 2 ^ 32) :
    n * 4 % 2 ^ 32 / 3 + (if 0 < n % 3 then 4 else 0) = 4 * ((n + 2) / 3) ↔
      3 ∣ n ∧ n < 2 ^ 30 := by
  split <;> omega

theorem encrypts_iff (mem : Bool) (d : Bytes) (h : 4 * ((d.bytes.length + 2) / 3) < 2 ^ 32) :
    Encrypts mem d ↔ mem = true ∧ 3 ∣ d.bytes.length ∧ d.bytes.length < 2 ^ 30 := by
  rw [← outLength_eq_iff h]
  constructor
  · intro henc
    obtain ⟨out, hres, -⟩ := henc
    cases mem with
    | false => cases hres
    | true =>
        obtain ⟨_, -, hpassed⟩ := Option.map_eq_some_iff.mp hres
        exact ⟨rfl, congrArg Passed.len hpassed⟩
  · intro hcond
    obtain ⟨hmem, hlen⟩ := hcond
    subst hmem
    have hchars : (encodeChars d.bytes).length = 4 * ((d.bytes.length + 2) / 3) + 1 := by
      rw [encodeChars_eq, List.length_append, length_encode, List.length_singleton]
    refine ⟨(encodeChars d.bytes).map some, ?_, ?_⟩
    · unfold encrypt base64Encode
      rw [hlen]
      dsimp only
      rw [if_pos rfl, fill_of_le (by omega), hchars]
      simp [newBuffer]
    · rw [encodeChars_eq, List.map_append, ← length_encode digit (chr '=')]
      exact List.take_left' (List.length_map some)

theorem decrypts_iff (mem : Bool) (d : Bytes) (h : 4 * ((d.bytes.length + 2) / 3) < 2 ^ 32) :
    Decrypts mem (encoded d h) d ↔
      mem = true ∧ d.bytes.length < mallocSize (4 * ((d.bytes.length + 2) / 3)) := by
  have hchars : decodeChars (encoded d h).bytes = (d.bytes, 0) := decodeChars_encode d.bytes
  obtain ⟨hlen, herr⟩ := decodeChars_spec (encoded d h).bytes
  rw [hchars] at hlen herr
  have hdec : Decodable (encoded d h).bytes ↔
      d.bytes.length < mallocSize (4 * ((d.bytes.length + 2) / 3)) := by
    have hcomplete : ¬ Incomplete (encoded d h).bytes := fun hinc => Nat.lt_irrefl 0 (herr.mpr hinc)
    unfold Decodable
    rw [and_iff_right hcomplete, ← hlen, ← length_encode digit (chr '=')]
    rfl
  rw [← hdec]
  constructor
  · intro hres
    obtain ⟨out, hres, -⟩ := hres
    exact decodable_of_decrypt hres
  · intro hcond
    obtain ⟨hmem, hcond⟩ := hcond
    subst hmem
    obtain ⟨rest, hres⟩ := decrypt_of_decodable hcond
    rw [hchars] at hres
    exact ⟨_, hres, List.take_left' (List.length_map some)⟩

/--
**When a round trip is right.**

`encrypt` passes on the encoding and its length exactly for a multiple of three bytes,
and fewer than `2 ^ 30`; `decrypt` passes on what was encoded exactly if it allocates
enough. Both need their allocation to succeed.
-/
theorem roundTrip_iff (mem mem' : Bool) (d : Bytes)
    (h : 4 * ((d.bytes.length + 2) / 3) < 2 ^ 32) :
    (Encrypts mem d ↔ mem = true ∧ 3 ∣ d.bytes.length ∧ d.bytes.length < 2 ^ 30) ∧
    (Decrypts mem' (encoded d h) d ↔
      mem' = true ∧ d.bytes.length < mallocSize (4 * ((d.bytes.length + 2) / 3))) :=
  ⟨encrypts_iff mem d h, decrypts_iff mem' d h⟩

theorem roundTrip_man :
    let man : Bytes := ⟨text "Man", by decide⟩
    Encrypts true man ∧ Decrypts true (encoded man (by decide)) man :=
  have h := roundTrip_iff true true ⟨text "Man", by decide⟩ (by decide)
  ⟨h.1.mpr ⟨rfl, by decide, by decide⟩, h.2.mpr ⟨rfl, by decide⟩⟩

/-- One byte: four characters, and a length of five. -/
theorem not_roundTrip :
    (encrypt true ⟨[0], by decide⟩).map Passed.len = some 5 ∧ ¬ Encrypts true ⟨[0], by decide⟩ := by
  have hlen : (encrypt true ⟨[0], by decide⟩).map Passed.len = some 5 := by decide
  refine ⟨hlen, ?_⟩
  intro h
  obtain ⟨out, hres, -⟩ := h
  rw [hres] at hlen
  have hfive : 4 * ((1 + 2) / 3) = 5 := Option.some.inj hlen
  exact absurd hfive (by decide)

end Base64

end NanomsgDemo.Utils

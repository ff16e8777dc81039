import NanomsgDemo.Utils.FileUtils
import NanomsgDemo.Utils.XXTeaCipher

/-!
# `XXTea`

The decryption of `libutils/lw_xxtea.cpp`, with the conversions between bytes and words
in `libutils/ext/xxtea.c`. What is encrypted ends with a word that says how many bytes
there are; a decrypted array whose last word cannot be this length is no plaintext, and
a null pointer is returned for it.

The class does not look at the pointer: its callback gets it, and a file that is to take
the plaintext is emptied. Nor does anything look at the length before the words are
counted. An input of no bytes has no words, and for one of `2 ^ 32 - 3` bytes or more the
size of the array is zero modulo `2 ^ 32`. Allocations are taken to succeed.
-/

namespace NanomsgDemo.Utils

open Net Buffers

/-! ## The source -/

/-- `n`, the number of words `len` bytes take. -/
def wordCount (len : Word) : Word :=
  let n := len >>> 2
  if len &&& 3 = 0 then n else n + 1

/-- An array allocated for `n << 2` bytes and set to zero. -/
def newWords (n : Word) : List Word := List.replicate ((n <<< 2).toNat / 4) 0

/-- The loop of `xxtea_to_long_array`. -/
def longArrayLoop (data : List Byte) (len : Word) (result : List Word) : Option (List Word) :=
  (List.range len.toNat).foldlM (fun result (i : Nat) =>
    (load data i).bind fun b =>
      (load result (i >>> 2 : Nat)).bind fun w =>
        store result (i >>> 2 : Nat) (w ||| b.toUInt32 <<< ((UInt32.ofNat i &&& 3) <<< 3)))
    result

/-- `xxtea_to_long_array`: the array and `ret_len`. -/
def xxteaToLongArray (data : List Byte) (len : Word) (includeLength : Bool) :
    Option (List Word × Word) :=
  let n := wordCount len
  if includeLength then
    (store (newWords (n + 1)) n.toNat len).bind fun result =>
      (longArrayLoop data len result).map fun result => (result, n + 1)
  else (longArrayLoop data len (newWords n)).map fun result => (result, n)

/-- The byte `i` of an array of words. -/
def byteAt (data : List Word) (i : Nat) : Option Byte :=
  (load data (i >>> 2 : Nat)).map fun w =>
    (w >>> ((UInt32.ofNat i &&& 3) <<< 3) &&& 0xff).toUInt8

/-- `xxtea_to_byte_array` from its `malloc` on. -/
def bytesOut (data : List Word) (n : Word) : Option Passed :=
  ((List.range n.toNat).mapM (byteAt data)).bind fun bytes =>
    (fill (n + 1).toNat (bytes ++ [0])).map fun result => ⟨some result, n.toNat⟩

/-- `xxtea_to_byte_array`. When it returns null, `*ret_len` is still the zero it was set to. -/
def xxteaToByteArray (data : List Word) (len : Word) (includeLength : Bool) : Option Passed :=
  let n := len <<< 2
  if includeLength then
    (load data (len - 1).toNat).bind fun m =>
      if m < n - 7 ∨ m > n - 4 then some ⟨none, 0⟩ else bytesOut data m
  else bytesOut data n

/-- `do_xxtea_decrypt`. -/
def doXxteaDecrypt (data : List Byte) (len : Word) (key : List Byte) : Option Passed :=
  (xxteaToLongArray data len false).bind fun (v, vLen) =>
    (xxteaToLongArray key 16 false).bind fun (k, _) =>
      (xxteaLongDecrypt v vLen k).bind fun v => xxteaToByteArray v vLen true

/-- `fix_key_length`. -/
def fixKeyLength (key : List Byte) (keyLen : Word) : List Byte :=
  key.take keyLen.toNat ++ List.replicate (16 - keyLen.toNat) 0

/-- `xxtea_decrypt`. -/
def xxteaDecrypt (data : List Byte) (dataLen : Word) (key : List Byte) (keyLen : Word) :
    Option Passed :=
  if keyLen < 16 then doXxteaDecrypt data dataLen (fixKeyLength key keyLen)
  else doXxteaDecrypt data dataLen key

/-- `XXTea`. -/
structure XXTea where
  k : CString

namespace XXTea

/-- `XXTea::decrypt`: what the callback is called with. -/
def decrypt (t : XXTea) (data : Bytes) : Option Passed :=
  xxteaDecrypt data.bytes (UInt32.ofNat data.bytes.length) (t.k.bytes ++ [0])
    (UInt32.ofNat t.k.bytes.length)

/-- `XXTea::decrypt` from a file to a file. -/
def decryptFile (t : XXTea) (unwritten : Nat → Byte) (disk : Disk)
    (filename outfilename : CString) : Option Disk :=
  (getDataFromFile disk filename).bind fun d =>
    (t.decrypt d).bind fun p => setDataToFile unwritten disk outfilename p.out p.len

end XXTea

/-! ## Bytes to words -/

theorem toNat_wordCount (len : Word) : (wordCount len).toNat = (len.toNat + 3) / 4 := by
  have hlt := len.toNat_lt
  have hlow : len &&& 3 = 0 ↔ len.toNat % 4 = 0 := by
    rw [← UInt32.toNat_inj, UInt32.toNat_and]
    exact iff_of_eq (congrArg (· = 0) (Nat.and_two_pow_sub_one_eq_mod len.toNat 2))
  have hshift : (len >>> 2).toNat = len.toNat / 4 := by
    rw [UInt32.toNat_shiftRight]
    exact Nat.shiftRight_eq_div_pow len.toNat 2
  unfold wordCount
  dsimp only
  split
  · rename_i h
    have := hlow.mp h
    omega
  · rename_i h
    have := mt hlow.mpr h
    rw [UInt32.toNat_add, hshift, UInt32.toNat_one]
    omega

theorem length_newWords (n : Word) : (newWords n).length = n.toNat * 4 % 2 ^ 32 / 4 := by
  unfold newWords
  rw [List.length_replicate, UInt32.toNat_shiftLeft]
  show n.toNat <<< 2 % 2 ^ 32 / 4 = _
  rw [Nat.shiftLeft_eq]

theorem longArrayLoop_defined {data : List Byte} {len : Word} {result : List Word}
    (hdata : len.toNat ≤ data.length) (hresult : len.toNat ≤ 4 * result.length) :
    ∃ v, longArrayLoop data len result = some v ∧ v.length = result.length := by
  refine foldlM_defined (I := fun v : List Word => v.length = result.length) ?_ rfl
  intro i hi v hv
  have hi : i < len.toNat := List.mem_range.mp hi
  have hword : i >>> 2 < v.length := by
    rw [Nat.shiftRight_eq_div_pow]
    omega
  rw [load_getD (by omega) 0, Option.bind_some, load_getD hword 0, Option.bind_some,
    store_set hword]
  exact ⟨_, rfl, by rw [List.length_set, hv]⟩

/-- Bytes that leave room for their number of words are put into an array. -/
theorem xxteaToLongArray_of_le {data : List Byte} {len : Word} (hdata : len.toNat ≤ data.length)
    (h : len.toNat ≤ 2 ^ 32 - 4) :
    ∃ v, xxteaToLongArray data len false = some (v, UInt32.ofNat v.length) ∧
      v.length = (len.toNat + 3) / 4 := by
  have hcount := toNat_wordCount len
  have hnew : (newWords (wordCount len)).length = (len.toNat + 3) / 4 := by
    rw [length_newWords]
    omega
  obtain ⟨v, hloop, hlen⟩ := longArrayLoop_defined hdata
    (by omega : len.toNat ≤ 4 * (newWords (wordCount len)).length)
  refine ⟨v, ?_, by omega⟩
  have hwords : UInt32.ofNat v.length = wordCount len := by
    rw [hlen, hnew, ← hcount, UInt32.ofNat_toNat]
  unfold xxteaToLongArray
  dsimp only
  rw [if_neg (by decide), hloop, hwords]
  rfl

/-- For more bytes an array of no size is allocated, and the first one is put behind it. -/
theorem xxteaToLongArray_of_lt {data : List Byte} {len : Word} (h : 2 ^ 32 - 4 < len.toNat) :
    xxteaToLongArray data len false = none := by
  have hlt := len.toNat_lt
  have hcount := toNat_wordCount len
  have hnew : newWords (wordCount len) = [] := by
    rw [← List.length_eq_zero_iff, length_newWords]
    omega
  obtain ⟨n, hn⟩ : ∃ n, len.toNat = n + 1 := ⟨len.toNat - 1, by omega⟩
  have hloop : longArrayLoop data len [] = none := by
    unfold longArrayLoop
    rw [hn, List.range_eq_range', List.range'_succ, List.foldlM_cons]
    cases load data (0 : Nat) <;> rfl
  unfold xxteaToLongArray
  dsimp only
  rw [if_neg (by decide), hnew, hloop]
  rfl

namespace XXTea

/-- The sixteen bytes of the key, or more. -/
def keyBytes (t : XXTea) : List Byte :=
  let keyLen := UInt32.ofNat t.k.bytes.length
  if keyLen < 16 then fixKeyLength (t.k.bytes ++ [0]) keyLen else t.k.bytes ++ [0]

theorem decrypt_eq (t : XXTea) (data : Bytes) :
    t.decrypt data =
      doXxteaDecrypt data.bytes (UInt32.ofNat data.bytes.length) t.keyBytes := by
  unfold decrypt xxteaDecrypt keyBytes
  dsimp only
  split <;> rfl

theorem length_keyBytes (t : XXTea) : 16 ≤ t.keyBytes.length := by
  have hle : (UInt32.ofNat t.k.bytes.length).toNat ≤ t.k.bytes.length := by
    rw [UInt32.toNat_ofNat']
    exact Nat.mod_le ..
  unfold keyBytes fixKeyLength
  dsimp only
  split
  · rw [List.length_append, List.length_take, List.length_append, List.length_replicate]
    omega
  · rename_i h
    have h16 : 16 ≤ (UInt32.ofNat t.k.bytes.length).toNat := by
      have := UInt32.le_iff_toNat_le.mp (UInt32.not_lt.mp h)
      exact this
    rw [List.length_append]
    omega

/-- The key is always four words. -/
theorem exists_keyWords (t : XXTea) :
    ∃ k, xxteaToLongArray t.keyBytes 16 false = some (k, 4) ∧ k.length = 4 := by
  have hkey : (16 : Word).toNat ≤ t.keyBytes.length := t.length_keyBytes
  obtain ⟨k, harray, hlen⟩ := xxteaToLongArray_of_le hkey (by decide)
  have hlen : k.length = 4 := hlen
  rw [hlen] at harray
  exact ⟨k, harray, hlen⟩

end XXTea

/-! ## Words to bytes -/

/-- A length that fits an array of this many words, its own word included. -/
def Fits (words : Nat) (m : Word) : Prop :=
  1 < words ∧ 4 * words ≤ m.toNat + 7 ∧ m.toNat + 4 ≤ 4 * words

/-- The check of the length. For a single word its lower bound wraps around. -/
theorem lengthCheck_iff {words : Nat} (h0 : 0 < words) (h : words < 2 ^ 30) (m : Word) :
    m < UInt32.ofNat words <<< 2 - 7 ∨ m > UInt32.ofNat words <<< 2 - 4 ↔ ¬ Fits words m := by
  have hm := m.toNat_lt
  have hwords : (UInt32.ofNat words).toNat = words :=
    UInt32.toNat_ofNat_of_lt' (Nat.lt_trans h (by decide))
  have hn : (UInt32.ofNat words <<< 2).toNat = 4 * words := by
    rw [UInt32.toNat_shiftLeft, hwords]
    show words <<< 2 % 2 ^ 32 = 4 * words
    rw [Nat.shiftLeft_eq]
    omega
  unfold Fits
  rw [UInt32.lt_iff_toNat_lt, gt_iff_lt, UInt32.lt_iff_toNat_lt, UInt32.toNat_sub,
    UInt32.toNat_sub, hn]
  show m.toNat < (2 ^ 32 - 7 + 4 * words) % 2 ^ 32 ∨ (2 ^ 32 - 4 + 4 * words) % 2 ^ 32 < m.toNat ↔ _
  omega

/-- A buffer with a length that is inside of it. -/
def Passed.Plaintext (p : Passed) : Prop :=
  ∃ out bytes, p.out = some out ∧ out.read 0 p.len = some bytes

theorem bytesOut_plaintext {v : List Word} {m : Word} (h : Fits v.length m)
    (hv : v.length < 2 ^ 30) : ∃ p, bytesOut v m = some p ∧ p.Plaintext := by
  obtain ⟨-, -, hm⟩ := h
  have hbyte : ∀ i ∈ List.range m.toNat, ∃ b, byteAt v i = some b := by
    intro i hi
    have hi : i < m.toNat := List.mem_range.mp hi
    have hword : i >>> 2 < v.length := by
      rw [Nat.shiftRight_eq_div_pow]
      omega
    unfold byteAt
    rw [load_getD hword 0]
    exact ⟨_, rfl⟩
  obtain ⟨bytes, hbytes, hlen⟩ := mapM_defined hbyte
  rw [List.length_range] at hlen
  have hsize : (m + 1).toNat = (bytes ++ [0]).length := by
    rw [UInt32.toNat_add, UInt32.toNat_one, List.length_append, List.length_singleton]
    omega
  have hfill : fill (m + 1).toNat (bytes ++ [0]) = some ((bytes ++ [0]).map some) := by
    rw [hsize, fill_of_le (Nat.le_refl _), Nat.sub_self]
    exact congrArg some (List.append_nil _)
  refine ⟨⟨some ((bytes ++ [0]).map some), m.toNat⟩, ?_, _, bytes, rfl, ?_⟩
  · unfold bytesOut
    rw [hbytes, Option.bind_some, hfill]
    rfl
  · have hinside : 0 + m.toNat ≤ (bytes ++ [0]).length := by
      rw [List.length_append]
      omega
    rw [Buffer.read_map_some hinside, List.drop_zero, List.take_left' hlen]

/-- The words of a decrypted array become bytes if the last one can be their length. -/
theorem xxteaToByteArray_eq {v : List Word} {m : Word} (hm : v.getLast? = some m)
    (hv : v.length < 2 ^ 30) :
    (Fits v.length m → xxteaToByteArray v (UInt32.ofNat v.length) true = bytesOut v m) ∧
    (¬ Fits v.length m → xxteaToByteArray v (UInt32.ofNat v.length) true = some ⟨none, 0⟩) := by
  have h0 : 0 < v.length := by
    rw [List.length_pos_iff]
    intro hnil
    rw [hnil] at hm
    cases hm
  have hlast : load v (UInt32.ofNat v.length - 1).toNat = some m := by
    rw [toNat_last h0 (Nat.lt_trans hv (by decide)), load_natCast, ← hm,
      List.getLast?_eq_getElem?]
  have hcheck := lengthCheck_iff h0 hv m
  unfold xxteaToByteArray
  dsimp only
  rw [if_pos rfl, hlast, Option.bind_some]
  constructor
  · intro hfits
    exact if_neg fun h => hcheck.mp h hfits
  · intro hfits
    exact if_pos (hcheck.mpr hfits)

namespace XXTea

/-! ## When there is a plaintext -/

/--
The data is what an array encrypts to under the key: two words or more, the last of
which can be the length of the others.
-/
def Enciphered (t : XXTea) (data : Bytes) : Prop :=
  ∃ v k w m,
    xxteaToLongArray data.bytes (UInt32.ofNat data.bytes.length) false =
      some (v, UInt32.ofNat v.length) ∧
    xxteaToLongArray t.keyBytes 16 false = some (k, 4) ∧
    xxteaLongEncrypt w (UInt32.ofNat w.length) k = some v ∧
    w.length = v.length ∧ w.getLast? = some m ∧ Fits w.length m

/-- There are words, and few enough of them. -/
def Convertible (data : Bytes) : Prop :=
  data.bytes ≠ [] ∧ data.bytes.length ≤ 2 ^ 32 - 4

theorem decrypt_of_not_convertible {t : XXTea} {data : Bytes} (h : ¬ Convertible data) :
    t.decrypt data = none := by
  rw [decrypt_eq]
  unfold doXxteaDecrypt
  by_cases hnil : data.bytes = []
  · obtain ⟨k, hkey, hk⟩ := t.exists_keyWords
    have harray : xxteaToLongArray [] 0 false = some ([], 0) := by decide
    rw [hnil]
    show (xxteaToLongArray [] 0 false).bind _ = none
    rw [harray, Option.bind_some]
    show (xxteaToLongArray t.keyBytes 16 false).bind _ = none
    rw [hkey, Option.bind_some]
    show (xxteaLongDecrypt [] 0 k).bind _ = none
    rw [xxteaLongDecrypt_nil, Option.bind_none]
  · have hmany : 2 ^ 32 - 4 < (UInt32.ofNat data.bytes.length).toNat := by
      rw [data.toNat_length]
      by_contra hle
      exact h ⟨hnil, by omega⟩
    rw [xxteaToLongArray_of_lt hmany]
    rfl

theorem Enciphered.convertible {t : XXTea} {data : Bytes} (h : Enciphered t data) :
    Convertible data := by
  obtain ⟨v, k, w, m, harray, -, -, hlen, -, hfits⟩ := h
  constructor
  · intro hnil
    rw [hnil] at harray
    have hv : v = [] := by
      cases harray
      rfl
    rw [hlen, hv] at hfits
    exact absurd hfits.1 (by decide)
  · by_contra hmany
    have hlong := data.toNat_length
    rw [xxteaToLongArray_of_lt (by omega)] at harray
    cases harray

section Converted

variable {t : XXTea} {data : Bytes} {v k w : List Word} {m : Word}

/-- What is passed on is made of the words that the data decrypts to. -/
theorem decrypt_of_words
    (harray : xxteaToLongArray data.bytes (UInt32.ofNat data.bytes.length) false =
      some (v, UInt32.ofNat v.length))
    (hkey : xxteaToLongArray t.keyBytes 16 false = some (k, 4))
    (hw : xxteaLongDecrypt v (UInt32.ofNat v.length) k = some w) :
    t.decrypt data = xxteaToByteArray w (UInt32.ofNat v.length) true := by
  rw [decrypt_eq]
  unfold doXxteaDecrypt
  rw [harray, Option.bind_some]
  dsimp only
  rw [hkey, Option.bind_some]
  dsimp only
  rw [hw, Option.bind_some]

/-- Data is an encipherment if the words it decrypts to end with a length. -/
theorem enciphered_iff
    (harray : xxteaToLongArray data.bytes (UInt32.ofNat data.bytes.length) false =
      some (v, UInt32.ofNat v.length))
    (hkey : xxteaToLongArray t.keyBytes 16 false = some (k, 4)) (hk : k.length = 4)
    (hv : v.length < 2 ^ 32) (hw : xxteaLongDecrypt v (UInt32.ofNat v.length) k = some w)
    (hwlen : w.length = v.length) (hm : w.getLast? = some m) :
    Enciphered t data ↔ Fits w.length m := by
  constructor
  · intro henciphered
    obtain ⟨v', k', w', m', harray', hkey', henc, hlen, hm', hfits⟩ := henciphered
    rw [harray] at harray'
    rw [hkey] at hkey'
    cases harray'
    cases hkey'
    -- the array that encrypts to the data is the one it decrypts to
    have hmore : 1 < v.length := by
      rw [← hlen]
      exact hfits.1
    have hw' := (xxteaLongDecrypt_eq_some_iff hk hmore hv).mpr ⟨hlen, henc⟩
    rw [hw] at hw'
    cases hw'
    rw [hm] at hm'
    cases hm'
    exact hfits
  · intro hfits
    have hmore : 1 < v.length := by
      rw [← hwlen]
      exact hfits.1
    obtain ⟨-, henc⟩ := (xxteaLongDecrypt_eq_some_iff hk hmore hv).mp hw
    exact ⟨v, k, w, m, harray, hkey, henc, hwlen, hm, hfits⟩

/-- Data that can be converted either has a plaintext, or null is passed on. -/
theorem decrypt_of_convertible (h : Convertible data) :
    (Enciphered t data ∧ ∃ p, t.decrypt data = some p ∧ p.Plaintext) ∨
      (¬ Enciphered t data ∧ t.decrypt data = some ⟨none, 0⟩) := by
  obtain ⟨hne, hle⟩ := h
  have hpos := List.length_pos_iff.mpr hne
  have hlen := data.toNat_length
  obtain ⟨k, hkey, hk⟩ := t.exists_keyWords
  obtain ⟨v, harray, hv⟩ := xxteaToLongArray_of_le (Nat.le_of_eq hlen)
    (by rw [hlen]; exact hle)
  rw [hlen] at hv
  obtain ⟨w, hw, hwlen⟩ := exists_xxteaLongDecrypt hk (by omega : 0 < v.length) (by omega)
  obtain ⟨m, hm⟩ : ∃ m, w.getLast? = some m := by
    cases hlast : w.getLast? with
    | some m => exact ⟨m, rfl⟩
    | none =>
        rw [List.getLast?_eq_none_iff] at hlast
        rw [hlast, List.length_nil] at hwlen
        omega
  have hdecrypt := decrypt_of_words harray hkey hw
  have henciphered := enciphered_iff harray hkey hk (by omega) hw hwlen hm
  obtain ⟨hfits, hother⟩ := xxteaToByteArray_eq hm (by omega)
  by_cases hf : Fits w.length m
  · obtain ⟨p, hp, hplain⟩ := bytesOut_plaintext hf (by omega)
    refine Or.inl ⟨henciphered.mpr hf, p, ?_, hplain⟩
    rw [hdecrypt, ← hwlen, hfits hf, hp]
  · refine Or.inr ⟨mt henciphered.mp hf, ?_⟩
    rw [hdecrypt, ← hwlen, hother hf]

end Converted

/-- Nothing undefined happens, and the callback does not get a null pointer. -/
def Clean (t : XXTea) (data : Bytes) : Prop := ∃ p, t.decrypt data = some p ∧ p.out ≠ none

theorem clean_iff (t : XXTea) (data : Bytes) : Clean t data ↔ Enciphered t data := by
  by_cases hconv : Convertible data
  · rcases decrypt_of_convertible (t := t) hconv with hcase | hcase
    · obtain ⟨henc, p, hp, out, bytes, hout, -⟩ := hcase
      refine iff_of_true ⟨p, hp, ?_⟩ henc
      rw [hout]
      exact Option.some_ne_none out
    · obtain ⟨hnot, hnull⟩ := hcase
      refine iff_of_false ?_ hnot
      intro hclean
      obtain ⟨p, hp, hout⟩ := hclean
      rw [hnull] at hp
      cases hp
      exact hout rfl
  · refine iff_of_false ?_ fun henc => hconv henc.convertible
    intro hclean
    obtain ⟨p, hp, -⟩ := hclean
    rw [decrypt_of_not_convertible hconv] at hp
    cases hp

/-- From file to file: without a plaintext an output file that is there is left as it was. -/
def FileClean (t : XXTea) (unwritten : Nat → Byte) (disk : Disk)
    (filename outfilename : CString) : Prop :=
  ∃ data disk', getDataFromFile disk filename = some data ∧
    t.decryptFile unwritten disk filename outfilename = some disk' ∧
    (¬ Enciphered t data →
      ∀ old, disk.files outfilename = some old → disk'.files outfilename = some old)

/-- Opening the file for writing fails, or there is nothing to lose. -/
def Spared (disk : Disk) (outfilename : CString) : Prop :=
  outfilename.bytes = [] ∨ disk.writable outfilename = false ∨
    ∀ old, disk.files outfilename = some old → old = []

theorem setDataToFile_null (unwritten : Nat → Byte) (disk : Disk) (outfilename : CString) :
    ∃ disk', setDataToFile unwritten disk outfilename none 0 = some disk' ∧
      ((∀ old, disk.files outfilename = some old → disk'.files outfilename = some old) ↔
        Spared disk outfilename) := by
  unfold setDataToFile Spared
  split
  · rename_i hname
    exact ⟨disk, rfl, by simp [hname]⟩
  · rename_i hname
    split
    · rename_i hwritable
      refine ⟨disk.put outfilename [], rfl, ?_⟩
      rw [Disk.files_put_self]
      simp [hname, hwritable, eq_comm]
    · rename_i hwritable
      exact ⟨disk, rfl, by simp [hwritable]⟩

theorem setDataToFile_plaintext {p : Passed} (h : p.Plaintext) (unwritten : Nat → Byte)
    (disk : Disk) (outfilename : CString) :
    ∃ disk', setDataToFile unwritten disk outfilename p.out p.len = some disk' := by
  obtain ⟨out, bytes, hout, hread⟩ := h
  obtain ⟨hle, -⟩ := read_eq_some_iff.mp hread
  unfold setDataToFile
  rw [hout]
  split
  · exact ⟨_, rfl⟩
  · split
    · exact ⟨_, if_pos hle⟩
    · exact ⟨_, rfl⟩

theorem fileClean_iff (t : XXTea) (unwritten : Nat → Byte) (disk : Disk)
    (filename outfilename : CString) :
    FileClean t unwritten disk filename outfilename ↔
      ∃ data, getDataFromFile disk filename = some data ∧
        (Enciphered t data ∨ Convertible data ∧ Spared disk outfilename) := by
  unfold FileClean decryptFile
  refine exists_congr ?_
  intro data
  rw [exists_and_left]
  refine and_congr_right ?_
  intro hdata
  rw [hdata, Option.bind_some]
  by_cases hconv : Convertible data
  · rcases decrypt_of_convertible (t := t) hconv with hcase | hcase
    · obtain ⟨henc, p, hp, hplain⟩ := hcase
      obtain ⟨disk', hset⟩ := setDataToFile_plaintext hplain unwritten disk outfilename
      rw [hp, Option.bind_some]
      exact iff_of_true ⟨disk', hset, fun hnot => absurd henc hnot⟩ (Or.inl henc)
    · obtain ⟨hnot, hnull⟩ := hcase
      obtain ⟨disk', hset, hspared⟩ := setDataToFile_null unwritten disk outfilename
      rw [hnull, Option.bind_some, ← hspared]
      dsimp only
      rw [hset]
      constructor
      · intro h
        obtain ⟨d, hd, hsame⟩ := h
        cases hd
        exact Or.inr ⟨hconv, hsame hnot⟩
      · intro h
        rcases h with h | h
        · exact absurd h hnot
        · exact ⟨disk', rfl, fun _ => h.2⟩
  · rw [decrypt_of_not_convertible hconv]
    refine iff_of_false ?_ ?_
    · intro h
      obtain ⟨d, hd, -⟩ := h
      cases hd
    · intro h
      rcases h with h | h
      · exact hconv h.convertible
      · exact hconv h.1

/--
**When decryption is clean.**

The callback gets a buffer, and nothing undefined happens, exactly for data that was
encrypted under the key. From file to file other data is harmless only if it can be
converted at all, and only to a file that cannot be opened or is empty.
-/
theorem decrypt_clean_iff (t : XXTea) (data : Bytes) (unwritten : Nat → Byte) (disk : Disk)
    (filename outfilename : CString) :
    (Clean t data ↔ Enciphered t data) ∧
    (FileClean t unwritten disk filename outfilename ↔
      ∃ d, getDataFromFile disk filename = some d ∧
        (Enciphered t d ∨ Convertible d ∧ Spared disk outfilename)) :=
  ⟨clean_iff t data, fileClean_iff t unwritten disk filename outfilename⟩

/--
No bytes: there is no word to begin with. Four bytes: the callback gets null, and the
file that was to take the plaintext is empty.
-/
theorem not_decrypt_clean :
    let t : XXTea := ⟨.lit "key"⟩
    let disk : Disk :=
      { files := fun f => if f = .lit "in" then some [1, 2, 3, 4] else some [7]
        writable := fun _ => true }
    t.decrypt .null = none ∧ t.decrypt ⟨[1, 2, 3, 4], by decide⟩ = some ⟨none, 0⟩ ∧
      disk.files (.lit "out") = some [7] ∧
      (t.decryptFile (fun _ => 0) disk (.lit "in") (.lit "out")).map (·.files (.lit "out")) =
        some (some []) := by decide

end XXTea

end NanomsgDemo.Utils

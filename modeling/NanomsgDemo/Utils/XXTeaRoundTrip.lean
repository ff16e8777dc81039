import Mathlib.Algebra.GroupWithZero.Nat
import NanomsgDemo.Lib.WordBytes
import NanomsgDemo.Utils.XXTea

/-!
# `XXTea`, there and back

The encryption of `libutils/lw_xxtea.cpp`, from memory and from file to file, and what
becomes of data that is encrypted and decrypted again.

An array is described by its bytes. Before encryption they are the data, zeros up to
the next word, and the length of the data. Conversion to bytes and back leaves every
array as it is, and the cipher is undone, so decryption finds this same array and takes
from it as many bytes as its last word says.

For no data at all there is only the length, a single word that the cipher does not
touch and that decryption does not accept.
-/

namespace NanomsgDemo.Utils

open Net Buffers WordBytes

/-! ## The source -/

/-- `do_xxtea_encrypt`. -/
def doXxteaEncrypt (data : List Byte) (len : Word) (key : List Byte) : Option Passed :=
  (xxteaToLongArray data len true).bind fun (v, vLen) =>
    (xxteaToLongArray key 16 false).bind fun (k, _) =>
      (xxteaLongEncrypt v vLen k).bind fun v => xxteaToByteArray v vLen false

/-- `xxtea_encrypt`. -/
def xxteaEncrypt (data : List Byte) (dataLen : Word) (key : List Byte) (keyLen : Word) :
    Option Passed :=
  if keyLen < 16 then doXxteaEncrypt data dataLen (fixKeyLength key keyLen)
  else doXxteaEncrypt data dataLen key

namespace XXTea

/-- `XXTea::encrypt`: what the callback is called with. -/
def encrypt (t : XXTea) (data : Bytes) : Option Passed :=
  xxteaEncrypt data.bytes (UInt32.ofNat data.bytes.length) (t.k.bytes ++ [0])
    (UInt32.ofNat t.k.bytes.length)

/-- `XXTea::encrypt` from a file to a file. -/
def encryptFile (t : XXTea) (unwritten : Nat → Byte) (disk : Disk)
    (filename outfilename : CString) : Option Disk :=
  (getDataFromFile disk filename).bind fun d =>
    (t.encrypt d).bind fun p => setDataToFile unwritten disk outfilename p.out p.len

end XXTea

/-! ## The bytes of an array -/

/-- `(i & 3) << 3`. -/
theorem toNat_shift (i : Nat) : ((UInt32.ofNat i &&& 3) <<< 3 : Word).toNat = 8 * (i % 4) := by
  have hand : ∀ n, n &&& 3 = n % 4 := fun n => Nat.and_two_pow_sub_one_eq_mod n 2
  rw [UInt32.toNat_shiftLeft, UInt32.toNat_and, UInt32.toNat_ofNat']
  show ((i % 2 ^ 32 &&& 3) <<< 3) % 2 ^ 32 = _
  rw [hand, Nat.shiftLeft_eq]
  omega

theorem byteAt_eq (v : List Word) (i : Nat) : byteAt v i = (bytes v)[i]? := by
  unfold byteAt
  rw [load_natCast, Nat.shiftRight_eq_div_pow, getElem?_bytes]
  refine congrArg (Option.map · _) ?_
  funext w
  exact shiftRight_and (toNat_shift i) (Nat.mod_lt i (by decide))

/-- A byte is put where the array has a zero. -/
theorem longArrayLoop_step {data : List Byte} {v : List Word} {i : Nat} (hdata : i < data.length)
    (hv : i < 4 * v.length) (hzero : (bytes v)[i]? = some 0) :
    ∃ w v', load v (i >>> 2 : Nat) = some w ∧
      store v (i >>> 2 : Nat) (w ||| (data[i]).toUInt32 <<< ((UInt32.ofNat i &&& 3) <<< 3)) =
        some v' ∧
      bytes v' = (bytes v).set i data[i] := by
  have hshift : i >>> 2 = i / 4 := Nat.shiftRight_eq_div_pow i 2
  have hword : i / 4 < v.length := by omega
  rw [hshift]
  refine ⟨v[i / 4], _, ?_, store_set hword _, bytes_set hword ?_⟩
  · rw [load_natCast, List.getElem?_eq_getElem hword]
  · intro j _
    rw [byte_or_shiftLeft (toNat_shift i) (Nat.mod_lt i (by decide))]
    split
    · rename_i hj
      rw [getElem?_bytes, List.getElem?_eq_getElem hword, Option.map_some,
        Option.some_inj] at hzero
      rw [hj, hzero, UInt8.zero_or]
    · rfl

/-- The loop puts the data in front of what is not zero. -/
theorem longArrayLoop_bytes {data : List Byte} {len : Word} {result : List Word} {rest : List Byte}
    (hdata : len.toNat ≤ data.length)
    (hresult : bytes result = List.replicate len.toNat 0 ++ rest) :
    ∃ v, longArrayLoop data len result = some v ∧ bytes v = data.take len.toNat ++ rest := by
  have hlen : 4 * result.length = len.toNat + rest.length := by
    rw [← length_bytes, hresult, List.length_append, List.length_replicate]
  obtain ⟨v, hloop, hv⟩ := foldlM_range_defined (n := len.toNat) (s := result)
    (I := fun i v => bytes v = data.take i ++ (List.replicate (len.toNat - i) 0 ++ rest))
    (f := fun result (i : Nat) =>
      (load data i).bind fun b =>
        (load result (i >>> 2 : Nat)).bind fun w =>
          store result (i >>> 2 : Nat) (w ||| b.toUInt32 <<< ((UInt32.ofNat i &&& 3) <<< 3)))
    (by
      intro i hi v hv
      have htake : (data.take i).length = i := List.length_take_of_le (by omega)
      have hcons : List.replicate (len.toNat - i) (0 : Byte) =
          0 :: List.replicate (len.toNat - (i + 1)) 0 := by
        rw [← List.replicate_succ]
        congr 1
        omega
      have hsize : 4 * v.length = 4 * result.length := by
        rw [← length_bytes, hv, List.length_append, htake, List.length_append,
          List.length_replicate]
        omega
      have hzero : (bytes v)[i]? = some 0 := by
        rw [hv, List.getElem?_append_right (by omega), htake, Nat.sub_self, hcons]
        rfl
      obtain ⟨w, v', hload, hstore, hbytes⟩ :=
        longArrayLoop_step (by omega : i < data.length) (by omega) hzero
      refine ⟨v', ?_, ?_⟩
      · rw [load_natCast, List.getElem?_eq_getElem (by omega), Option.bind_some, hload,
          Option.bind_some, hstore]
      · have hset : (data.take i).length ≤ i := by omega
        rw [hbytes, hv, List.set_append_right _ _ hset, htake, Nat.sub_self, hcons,
          List.cons_append, List.set_cons_zero, List.take_add_one,
          List.getElem?_eq_getElem (by omega), List.append_assoc]
        rfl)
    (by rw [List.take_zero, Nat.sub_zero, List.nil_append]; exact hresult)
  refine ⟨v, hloop, ?_⟩
  rw [hv, Nat.sub_self]
  rfl

/-- Bytes become an array that has them, and zeros after them. -/
theorem xxteaToLongArray_bytes {data : List Byte} {len : Word} (hdata : len.toNat ≤ data.length)
    (h : len.toNat ≤ 2 ^ 32 - 4) :
    ∃ v, xxteaToLongArray data len false = some (v, UInt32.ofNat v.length) ∧
      v.length = (len.toNat + 3) / 4 ∧
      bytes v = data.take len.toNat ++ List.replicate (4 * v.length - len.toNat) 0 := by
  have hcount := toNat_wordCount len
  have hnew : (newWords (wordCount len)).length = (len.toNat + 3) / 4 := by
    rw [length_newWords]
    omega
  have hzeros : bytes (newWords (wordCount len)) = List.replicate len.toNat 0 ++
      List.replicate (4 * ((len.toNat + 3) / 4) - len.toNat) 0 := by
    have hreplicate : newWords (wordCount len) = List.replicate ((len.toNat + 3) / 4) 0 := by
      rw [← hnew]
      unfold newWords
      rw [List.length_replicate]
    rw [hreplicate, bytes_replicate_zero, List.replicate_append_replicate]
    congr 1
    omega
  obtain ⟨v, hloop, hbytes⟩ := longArrayLoop_bytes hdata hzeros
  have hlen : v.length = (len.toNat + 3) / 4 := by
    have := congrArg List.length hbytes
    rw [length_bytes, List.length_append, List.length_take_of_le hdata,
      List.length_replicate] at this
    omega
  refine ⟨v, ?_, hlen, by rw [hlen]; exact hbytes⟩
  have hwords : UInt32.ofNat v.length = wordCount len := by
    rw [hlen, ← hcount, UInt32.ofNat_toNat]
  unfold xxteaToLongArray
  dsimp only
  rw [if_neg (by decide), hloop, hwords]
  rfl

/-- The bytes of an array become this array again. -/
theorem xxteaToLongArray_of_bytes {v : List Word} {len : Word} (hlen : len.toNat = 4 * v.length) :
    xxteaToLongArray (bytes v) len false = some (v, UInt32.ofNat v.length) := by
  have hlt := len.toNat_lt
  have hle : len.toNat ≤ (bytes v).length := by
    rw [length_bytes]
    omega
  obtain ⟨w, harray, hwlen, hbytes⟩ := xxteaToLongArray_bytes hle (by omega)
  have hsize : w.length = v.length := by omega
  have hzeros : 4 * w.length - len.toNat = 0 := by omega
  have hall : (bytes v).take len.toNat = bytes v :=
    List.take_of_length_le (by rw [length_bytes]; omega)
  rw [hall, hzeros, List.replicate_zero, List.append_nil] at hbytes
  rw [harray, bytes_injective hbytes]

/-- With the length as its last word. -/
theorem xxteaToLongArray_true {data : List Byte} {len : Word} (hdata : len.toNat ≤ data.length)
    (h : len.toNat ≤ 2 ^ 32 - 8) :
    ∃ v, xxteaToLongArray data len true = some (v, UInt32.ofNat v.length) ∧
      v.length = (len.toNat + 3) / 4 + 1 ∧ v.getLast? = some len ∧
      bytes v = data.take len.toNat ++
        (List.replicate (4 * ((len.toNat + 3) / 4) - len.toNat) 0 ++ bytes [len]) := by
  have hcount := toNat_wordCount len
  have hsucc : (wordCount len + 1).toNat = (len.toNat + 3) / 4 + 1 := by
    rw [UInt32.toNat_add, UInt32.toNat_one]
    omega
  have hsize : (newWords (wordCount len + 1)).length = (len.toNat + 3) / 4 + 1 := by
    rw [length_newWords]
    omega
  generalize hwords : (len.toNat + 3) / 4 = words at *
  have hnew : newWords (wordCount len + 1) = List.replicate words 0 ++ 0 :: [] := by
    rw [← List.replicate_succ', ← hsize]
    unfold newWords
    rw [List.length_replicate]
  have hstore : store (newWords (wordCount len + 1)) (wordCount len).toNat len =
      some (List.replicate words 0 ++ [len]) := by
    have hpre : (wordCount len).toNat = (List.replicate words (0 : Word)).length := by
      rw [List.length_replicate, hcount]
    rw [hnew, hpre, store_append]
  have hzeros : bytes (List.replicate words 0 ++ [len]) = List.replicate len.toNat 0 ++
      (List.replicate (4 * words - len.toNat) 0 ++ bytes [len]) := by
    rw [bytes_append, bytes_replicate_zero, ← List.append_assoc, List.replicate_append_replicate]
    congr 2
    omega
  obtain ⟨v, hloop, hbytes⟩ := longArrayLoop_bytes hdata hzeros
  have hlen : v.length = words + 1 := by
    have := congrArg List.length hbytes
    rw [length_bytes, List.length_append, List.length_take_of_le hdata, List.length_append,
      List.length_replicate, length_bytes, List.length_singleton] at this
    omega
  refine ⟨v, ?_, hlen, ?_, hbytes⟩
  · have hret : UInt32.ofNat v.length = wordCount len + 1 := by
      rw [hlen, ← hsucc, UInt32.ofNat_toNat]
    unfold xxteaToLongArray
    dsimp only
    rw [if_pos rfl, hstore, Option.bind_some, hloop, hret]
    rfl
  · -- the last four bytes are those of the length, and they make one word
    obtain ⟨u, x, hv⟩ := (List.eq_nil_or_concat' v).resolve_left (by
      intro hnil
      rw [hnil, List.length_nil] at hlen
      omega)
    rw [hv, List.length_append, List.length_singleton] at hlen
    rw [hv, bytes_append, ← List.append_assoc] at hbytes
    have hfront : (bytes u).length =
        (data.take len.toNat ++ List.replicate (4 * words - len.toNat) 0).length := by
      rw [length_bytes, List.length_append, List.length_take_of_le hdata, List.length_replicate]
      omega
    obtain ⟨-, hlast⟩ := List.append_inj hbytes hfront
    rw [hv, bytes_injective hlast, List.getLast?_concat]

/-- More bytes have no room for their length. -/
theorem xxteaToLongArray_true_of_lt {data : List Byte} {len : Word}
    (h : 2 ^ 32 - 8 < len.toNat) : xxteaToLongArray data len true = none := by
  have hlt := len.toNat_lt
  have hcount := toNat_wordCount len
  have hsucc : (wordCount len + 1).toNat = (len.toNat + 3) / 4 + 1 := by
    rw [UInt32.toNat_add, UInt32.toNat_one]
    omega
  have hsize : (newWords (wordCount len + 1)).length ≤ (wordCount len).toNat := by
    rw [length_newWords]
    omega
  have hstore : store (newWords (wordCount len + 1)) (wordCount len).toNat len = none :=
    store_eq_none (Or.inr (by omega))
  unfold xxteaToLongArray
  dsimp only
  rw [if_pos rfl, hstore, Option.bind_none]

/-- What is made of an array is as many of its bytes as asked for, and a NUL. -/
theorem bytesOut_eq {v : List Word} {n : Word} (h : n.toNat ≤ 4 * v.length)
    (hn : n.toNat + 1 < 2 ^ 32) :
    bytesOut v n = some ⟨some (((bytes v).take n.toNat ++ [0]).map some), n.toNat⟩ := by
  have hle : n.toNat ≤ (bytes v).length := by rw [length_bytes]; exact h
  have hread : (List.range n.toNat).mapM (byteAt v) = some ((bytes v).take n.toNat) :=
    mapM_range_eq hle fun i _ => byteAt_eq v i
  have hsize : (n + 1).toNat = ((bytes v).take n.toNat ++ [0]).length := by
    rw [UInt32.toNat_add, UInt32.toNat_one, List.length_append, List.length_take_of_le hle,
      List.length_singleton]
    omega
  unfold bytesOut
  rw [hread, Option.bind_some, hsize, fill_of_le (Nat.le_refl _), Nat.sub_self]
  exact congrArg (fun out => some (Passed.mk (some out) n.toNat)) (List.append_nil _)

theorem bytesOut_holds {v : List Word} {n : Word} (h : n.toNat ≤ 4 * v.length)
    (hn : n.toNat + 1 < 2 ^ 32) :
    ∃ p, bytesOut v n = some p ∧ p.Holds ((bytes v).take n.toNat) := by
  have hlen : ((bytes v).take n.toNat).length = n.toNat := by
    rw [List.length_take, length_bytes]
    omega
  refine ⟨_, bytesOut_eq h hn, hlen.symm, _, rfl, ?_⟩
  have hinside : 0 + n.toNat ≤ ((bytes v).take n.toNat ++ [0]).length := by
    rw [List.length_append]
    omega
  rw [Buffer.read_map_some hinside, List.drop_zero, List.take_left' hlen]

namespace XXTea

/-! ## Encryption -/

section Encrypted

variable {t : XXTea} {data : Bytes} {v w k : List Word}

theorem encrypt_eq (t : XXTea) (data : Bytes) :
    t.encrypt data =
      doXxteaEncrypt data.bytes (UInt32.ofNat data.bytes.length) t.keyBytes := by
  unfold encrypt xxteaEncrypt keyBytes
  dsimp only
  split <;> rfl

/-- An array of one word is left as it is. -/
theorem xxteaLongEncrypt_one (x : Word) : xxteaLongEncrypt [x] 1 k = some [x] := rfl

theorem exists_xxteaLongEncrypt (hk : k.length = 4) (h0 : 0 < v.length)
    (h : v.length < 2 ^ 32) :
    ∃ w, xxteaLongEncrypt v (UInt32.ofNat v.length) k = some w ∧ w.length = v.length ∧
      xxteaLongDecrypt w (UInt32.ofNat w.length) k = some v := by
  by_cases hmore : 1 < v.length
  · have henc := xxteaLongEncrypt_eq hk hmore h
    have hlen := length_encrypted (k := k) (v := v) (rounds v.length)
    refine ⟨_, henc, hlen, ?_⟩
    exact (xxteaLongDecrypt_eq_some_iff hk (by omega) (by omega)).mpr ⟨hlen.symm, henc⟩
  · obtain ⟨x, rfl⟩ := List.length_eq_one_iff.mp (by omega : v.length = 1)
    exact ⟨[x], xxteaLongEncrypt_one x, rfl, xxteaLongDecrypt_one x⟩

theorem encrypt_of_lt (h : 2 ^ 32 - 8 < data.bytes.length) : t.encrypt data = none := by
  rw [encrypt_eq]
  unfold doXxteaEncrypt
  rw [xxteaToLongArray_true_of_lt (by rw [data.toNat_length]; exact h)]
  rfl

/--
What the callback gets is the encryption of an array that has the data and its length.
-/
theorem encrypt_of_le (h : data.bytes.length ≤ 2 ^ 32 - 8) :
    ∃ v k w p, xxteaToLongArray t.keyBytes 16 false = some (k, 4) ∧ k.length = 4 ∧
      v.length = (data.bytes.length + 3) / 4 + 1 ∧
      v.getLast? = some (UInt32.ofNat data.bytes.length) ∧
      (bytes v).take data.bytes.length = data.bytes ∧
      w.length = v.length ∧ xxteaLongDecrypt w (UInt32.ofNat w.length) k = some v ∧
      t.encrypt data = some p ∧ p.Holds (bytes w) := by
  have hn := data.toNat_length
  obtain ⟨k, hkey, hk⟩ := t.exists_keyWords
  obtain ⟨v, harray, hlen, hlast, hbytes⟩ :=
    xxteaToLongArray_true (Nat.le_of_eq hn) (by rw [hn]; exact h)
  rw [hn] at hlen hbytes
  obtain ⟨w, henc, hwlen, hdec⟩ :=
    exists_xxteaLongEncrypt hk (by omega : 0 < v.length) (by omega)
  have hcount : (UInt32.ofNat v.length).toNat = v.length :=
    UInt32.toNat_ofNat_of_lt' (by rw [UInt32.size]; omega)
  have hsize : (UInt32.ofNat v.length <<< 2).toNat = 4 * w.length := by
    rw [UInt32.toNat_shiftLeft, hcount]
    show v.length <<< 2 % 2 ^ 32 = _
    rw [Nat.shiftLeft_eq]
    omega
  obtain ⟨p, hout, hp⟩ := bytesOut_holds (v := w) (Nat.le_of_eq hsize) (by omega)
  have hall : (bytes w).take (UInt32.ofNat v.length <<< 2).toNat = bytes w :=
    List.take_of_length_le (by rw [hsize, length_bytes])
  rw [hall] at hp
  refine ⟨v, k, w, p, hkey, hk, hlen, hlast, ?_, hwlen, hdec, ?_, hp⟩
  · rw [hbytes, List.take_length]
    exact List.take_left' rfl
  · rw [encrypt_eq]
    unfold doXxteaEncrypt
    rw [harray, Option.bind_some]
    dsimp only
    rw [hkey, Option.bind_some]
    dsimp only
    rw [henc, Option.bind_some]
    unfold xxteaToByteArray
    dsimp only
    rw [if_neg (by decide), hout]

end Encrypted

/-! ## There and back -/

/--
What is encrypted is decrypted to the data, in the callback: `e` is what the pointer
leads to and `q` what the second callback gets.
-/
def RoundTrip (t : XXTea) (data : Bytes) : Prop :=
  ∃ p e q, t.encrypt data = some p ∧ p.Holds e.bytes ∧ t.decrypt e = some q ∧
    q.Holds data.bytes

/-- Everything but the empty array comes back, and that gets a null pointer. -/
theorem decrypt_encrypt (t : XXTea) (data : Bytes) (h : data.bytes.length ≤ 2 ^ 32 - 8) :
    ∃ p e, t.encrypt data = some p ∧ p.Holds e.bytes ∧
      e.bytes.length = 4 * ((data.bytes.length + 3) / 4 + 1) ∧
      (data.bytes ≠ [] → ∃ q, t.decrypt e = some q ∧ q.Holds data.bytes) ∧
      (data.bytes = [] → t.decrypt e = some ⟨none, 0⟩) := by
  have hn := data.toNat_length
  obtain ⟨v, k, w, p, hkey, hk, hlen, hlast, hdata, hwlen, hdec, hp, hholds⟩ :=
    encrypt_of_le (t := t) h
  have hbytes : (bytes w).length = 4 * ((data.bytes.length + 3) / 4 + 1) := by
    rw [length_bytes, hwlen, hlen]
  let e : Bytes := ⟨bytes w, by omega⟩
  have harray : xxteaToLongArray e.bytes (UInt32.ofNat e.bytes.length) false =
      some (w, UInt32.ofNat w.length) := by
    refine xxteaToLongArray_of_bytes ?_
    rw [e.toNat_length]
    exact length_bytes w
  have hdecrypt := decrypt_of_words harray hkey hdec
  obtain ⟨hfits, hother⟩ := xxteaToByteArray_eq hlast (by omega)
  have hfits_iff : Fits v.length (UInt32.ofNat data.bytes.length) ↔ data.bytes ≠ [] := by
    rw [← List.length_pos_iff]
    unfold Fits
    rw [hn]
    omega
  refine ⟨p, e, hp, hholds, hbytes, ?_, ?_⟩
  · intro hne
    obtain ⟨q, hq, hqholds⟩ := bytesOut_holds (v := v) (n := UInt32.ofNat data.bytes.length)
      (by omega) (by omega)
    refine ⟨q, ?_, ?_⟩
    · rw [hdecrypt, hwlen, hfits (hfits_iff.mpr hne), hq]
    · rw [hn, hdata] at hqholds
      exact hqholds
  · intro hnil
    rw [hdecrypt, hwlen, hother fun hf => hfits_iff.mp hf hnil]

/--
**Decryption undoes encryption.**

Encryption is defined up to the last size for which there is room for the length and
makes whole words, one more than the data needs. Under the same key these decrypt to
the data with its length, for all data but the empty.
-/
theorem xxtea_roundTrip_iff (t : XXTea) (data : Bytes) :
    (t.encrypt data ≠ none ↔ data.bytes.length ≤ 2 ^ 32 - 8) ∧
    (∀ p, t.encrypt data = some p → p.len = 4 * ((data.bytes.length + 3) / 4 + 1)) ∧
    (RoundTrip t data ↔ data.bytes ≠ [] ∧ data.bytes.length ≤ 2 ^ 32 - 8) := by
  by_cases h : data.bytes.length ≤ 2 ^ 32 - 8
  · obtain ⟨p, e, hp, hholds, hlen, hback, hnull⟩ := decrypt_encrypt t data h
    refine ⟨iff_of_true (by rw [hp]; exact Option.some_ne_none p) h, ?_, ?_⟩
    · intro p' hp'
      rw [hp] at hp'
      cases hp'
      rw [hholds.1, hlen]
    · constructor
      · intro htrip
        refine ⟨?_, h⟩
        intro hnil
        obtain ⟨p', e', q, hp', hholds', hq, -, out, hout, -⟩ := htrip
        rw [hp] at hp'
        cases hp'
        have he : e' = e := by
          cases e'
          cases e
          cases hholds'.unique hholds
          rfl
        rw [he, hnull hnil] at hq
        cases hq
        cases hout
      · intro hne
        obtain ⟨q, hq, hqholds⟩ := hback hne.1
        exact ⟨p, e, q, hp, hholds, hq, hqholds⟩
  · have hnone : t.encrypt data = none := encrypt_of_lt (by omega)
    refine ⟨iff_of_false (fun hne => hne hnone) h, ?_, ?_⟩
    · intro p hp
      rw [hnone] at hp
      cases hp
    · refine iff_of_false ?_ (fun hne => h hne.2)
      intro htrip
      obtain ⟨p, e, q, hp, -⟩ := htrip
      rw [hnone] at hp
      cases hp

/-! ## From file to file -/

/--
A file is encrypted to a second one and that decrypted to a third: there the content is
again, and the files that are not written are as they were.
-/
def FileRoundTrip (t : XXTea) (unwritten unwritten' : Nat → Byte) (disk : Disk)
    (filename enc dec : CString) (content : List Byte) : Prop :=
  ∃ disk₁ disk₂, t.encryptFile unwritten disk filename enc = some disk₁ ∧
    t.decryptFile unwritten' disk₁ enc dec = some disk₂ ∧ disk₂.files dec = some content ∧
    ∀ f, f ≠ enc → f ≠ dec → disk₂.files f = disk.files f

section Files

variable {t : XXTea} {unwritten unwritten' : Nat → Byte} {disk : Disk}
  {filename enc dec : CString} {content : List Byte}

theorem encryptFile_eq {p : Passed} {out : List Byte} (hfilename : filename.bytes ≠ [])
    (henc : enc.bytes ≠ []) (hwritable : disk.writable enc = true)
    (hfile : disk.files filename = some content) (h : content.length < 2 ^ 31)
    (hp : t.encrypt ⟨content, Nat.lt_trans h (by decide)⟩ = some p) (hout : p.Holds out) :
    t.encryptFile unwritten disk filename enc = some (disk.put enc out) := by
  unfold encryptFile
  rw [getDataFromFile_of_lt hfilename hfile h, Option.bind_some, hp, Option.bind_some,
    setDataToFile_holds hout henc hwritable]

/-- A null pointer with no length empties the file, as the empty content does. -/
theorem decryptFile_eq {q : Passed} (henc : enc.bytes ≠ []) (hdec : dec.bytes ≠ [])
    (hwritable : disk.writable dec = true) {out : List Byte} (hfile : disk.files enc = some out)
    (h : out.length < 2 ^ 31) (hq : t.decrypt ⟨out, Nat.lt_trans h (by decide)⟩ = some q)
    (hcontent : q.Holds content ∨ q = ⟨none, 0⟩ ∧ content = []) :
    t.decryptFile unwritten disk enc dec = some (disk.put dec content) := by
  unfold decryptFile
  rw [getDataFromFile_of_lt henc hfile h, Option.bind_some, hq, Option.bind_some]
  rcases hcontent with hholds | hnull
  · exact setDataToFile_holds hholds hdec hwritable
  · obtain ⟨rfl, rfl⟩ := hnull
    unfold setDataToFile
    rw [if_neg hdec, if_pos hwritable]
    exact if_pos rfl

theorem fileRoundTrip_of_le (hfilename : filename.bytes ≠ []) (henc : enc.bytes ≠ [])
    (hdec : dec.bytes ≠ []) (hencw : disk.writable enc = true) (hdecw : disk.writable dec = true)
    (hfile : disk.files filename = some content) (h : content.length ≤ 2 ^ 31 - 8) :
    FileRoundTrip t unwritten unwritten' disk filename enc dec content := by
  have hread : content.length < 2 ^ 31 := by omega
  obtain ⟨p, e, hp, hholds, hlen, hback, hnull⟩ :=
    decrypt_encrypt t ⟨content, Nat.lt_trans hread (by decide)⟩ (by dsimp only; omega)
  dsimp only at hlen
  have hagain : e.bytes.length < 2 ^ 31 := by omega
  have hencrypt : t.encryptFile unwritten disk filename enc = some (disk.put enc e.bytes) :=
    encryptFile_eq hfilename henc hencw hfile hread hp hholds
  have hfile₁ : (disk.put enc e.bytes).files enc = some e.bytes := Disk.files_put_self ..
  obtain ⟨q, hq, hcontent⟩ : ∃ q, t.decrypt e = some q ∧
      (q.Holds content ∨ q = ⟨none, 0⟩ ∧ content = []) := by
    by_cases hnil : content = []
    · exact ⟨_, hnull hnil, Or.inr ⟨rfl, hnil⟩⟩
    · obtain ⟨q, hq, hqholds⟩ := hback hnil
      exact ⟨q, hq, Or.inl hqholds⟩
  have hdecrypt : t.decryptFile unwritten' (disk.put enc e.bytes) enc dec =
      some ((disk.put enc e.bytes).put dec content) :=
    decryptFile_eq henc hdec hdecw hfile₁ hagain hq hcontent
  refine ⟨_, _, hencrypt, hdecrypt, Disk.files_put_self .., ?_⟩
  intro f hfenc hfdec
  exact (Function.update_of_ne hfdec ..).trans (Function.update_of_ne hfenc ..)

theorem not_fileRoundTrip_of_lt (hfilename : filename.bytes ≠ []) (henc : enc.bytes ≠ [])
    (hencw : disk.writable enc = true) (hfile : disk.files filename = some content)
    (h : 2 ^ 31 - 8 < content.length) :
    ¬ FileRoundTrip t unwritten unwritten' disk filename enc dec content := by
  intro htrip
  obtain ⟨disk₁, disk₂, hencrypt, hdecrypt, -⟩ := htrip
  by_cases hread : content.length < 2 ^ 31
  · -- what is written then has 2 GiB, and is not read back
    obtain ⟨p, e, hp, hholds, hlen, -⟩ :=
      decrypt_encrypt t ⟨content, Nat.lt_trans hread (by decide)⟩ (by dsimp only; omega)
    dsimp only at hlen
    rw [encryptFile_eq hfilename henc hencw hfile hread hp hholds] at hencrypt
    cases hencrypt
    have hbig : 2 ^ 31 ≤ e.bytes.length := by omega
    unfold decryptFile at hdecrypt
    rw [getDataFromFile_of_le henc (Disk.files_put_self ..) hbig] at hdecrypt
    cases hdecrypt
  · unfold encryptFile at hencrypt
    rw [getDataFromFile_of_le hfilename hfile (by omega)] at hencrypt
    cases hencrypt

/--
**A file survives encryption and decryption up to 2 GiB less eight bytes.**

The empty file does as well, though its encryption has no plaintext. The three files
may be the same.
-/
theorem xxtea_fileRoundTrip_iff (t : XXTea) (hfilename : filename.bytes ≠ [])
    (henc : enc.bytes ≠ []) (hdec : dec.bytes ≠ []) (hencw : disk.writable enc = true)
    (hdecw : disk.writable dec = true) (hfile : disk.files filename = some content) :
    FileRoundTrip t unwritten unwritten' disk filename enc dec content ↔
      content.length ≤ 2 ^ 31 - 8 := by
  constructor
  · intro htrip
    by_contra hlt
    exact not_fileRoundTrip_of_lt hfilename henc hencw hfile (Nat.lt_of_not_le hlt) htrip
  · exact fileRoundTrip_of_le hfilename henc hdec hencw hdecw hfile

theorem xxtea_fileRoundTrip_plain :
    let t : XXTea := ⟨.lit "key"⟩
    let disk : Disk :=
      { files := fun f => if f = .lit "plain" then some [1, 2, 3] else none
        writable := fun _ => true }
    FileRoundTrip t (fun _ => 0) (fun _ => 0) disk (.lit "plain") (.lit "enc") (.lit "dec")
      [1, 2, 3] :=
  (xxtea_fileRoundTrip_iff ⟨.lit "key"⟩ (by decide) (by decide) (by decide) rfl rfl
    (by decide)).mpr (by decide)

end Files

end XXTea

end NanomsgDemo.Utils

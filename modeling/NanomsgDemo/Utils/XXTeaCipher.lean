import Mathlib.Algebra.GroupWithZero.Nat
import Mathlib.Data.List.Range
import NanomsgDemo.Lib.Buffers
import NanomsgDemo.Lib.Undo

/-!
# The cipher under `XXTea`

`xxtea_long_encrypt` and `xxtea_long_decrypt` of `libutils/ext/xxtea.c`. Every access to
the words and to the key is one that may lie outside. Apart from the array of no words,
none does, and then the two are inverse to each other: each assignment changes a word by
a value made of its neighbours, and decryption takes back the assignments of encryption
in reverse order.

The neighbour that was changed last is not read again, it is still in `z` or `y`.
-/

namespace NanomsgDemo.Utils

open Buffers Undo

/-- `xxtea_long`. -/
abbrev Word := UInt32

def XXTEA_DELTA : Word := 0x9e3779b9

/-- `p & 3 ^ e`, the place in the key. -/
def keyIndex (sum : Word) (p : Nat) : Nat :=
  let e : Word := sum >>> 2 &&& 3
  (UInt32.ofNat p &&& (3 : Word) ^^^ e).toNat

/-- `XXTEA_MX` once the word of the key is read. -/
def mixWord (key sum z y : Word) : Word :=
  ((z >>> 5 ^^^ y <<< 2) + (y >>> 3 ^^^ z <<< 4)) ^^^ ((sum ^^^ y) + (key ^^^ z))

/-- `v[p] += XXTEA_MX` and `v[p] -= XXTEA_MX`: the array, and the new word. -/
def assignAt (op : Word → Word → Word) (k : List Word) (sum : Word) (v : List Word) (p : Nat)
    (z y : Word) : Option (List Word × Word) :=
  (load v p).bind fun x =>
    (load k (keyIndex sum p)).bind fun key =>
      (store v p (op x (mixWord key sum z y))).map fun v => (v, op x (mixWord key sum z y))

/-- One round of `xxtea_long_encrypt`, `z` beside the array. -/
def encryptRound (k : List Word) (n : Nat) (sum : Word) (s : List Word × Word) :
    Option (List Word × Word) :=
  ((List.range n).foldlM (fun s p =>
      (load s.1 (p + 1 : Nat)).bind fun y => assignAt (· + ·) k sum s.1 p s.2 y) s).bind fun s =>
    (load s.1 0).bind fun y => assignAt (· + ·) k sum s.1 n s.2 y

/-- The rounds of `xxtea_long_encrypt`. -/
def encryptWhile (k : List Word) (n : Nat) : (q : Nat) → (sum : Word) → List Word × Word →
    Option (List Word)
  | 0, _, s => some s.1
  | q + 1, sum, s =>
      (encryptRound k n (sum + XXTEA_DELTA) s).bind (encryptWhile k n q (sum + XXTEA_DELTA))

/-- `6 + 52 / (n + 1)`. -/
def roundCount (n : Word) : Option Word := if n + 1 = 0 then none else some (6 + 52 / (n + 1))

/-- `xxtea_long_encrypt`. -/
def xxteaLongEncrypt (v : List Word) (len : Word) (k : List Word) : Option (List Word) :=
  let n := len - 1
  (load v n.toNat).bind fun z => (load v 0).bind fun _ => (roundCount n).bind fun q =>
    if n < 1 then some v else encryptWhile k n.toNat q.toNat 0 (v, z)

/-- One round of `xxtea_long_decrypt`, `y` beside the array. -/
def decryptRound (k : List Word) (n : Nat) (sum : Word) (s : List Word × Word) :
    Option (List Word × Word) :=
  ((List.range' 1 n).reverse.foldlM (fun s p =>
      (load s.1 (p - 1 : Nat)).bind fun z => assignAt (· - ·) k sum s.1 p z s.2) s).bind fun s =>
    (load s.1 n).bind fun z => assignAt (· - ·) k sum s.1 0 z s.2

/-- The inverse of `XXTEA_DELTA` counts the rounds that are left. -/
def roundsLeft (sum : Word) : Nat := (sum * 0x144cbc89).toNat

theorem roundsLeft_lt {sum : Word} (h : sum ≠ 0) :
    roundsLeft (sum - XXTEA_DELTA) < roundsLeft sum := by
  have hback : sum * 0x144cbc89 * XXTEA_DELTA = sum := by
    unfold XXTEA_DELTA
    grind
  have hnext : (sum - XXTEA_DELTA) * 0x144cbc89 = sum * 0x144cbc89 - 1 := by
    unfold XXTEA_DELTA
    grind
  have hne : sum * 0x144cbc89 ≠ 0 := by
    intro hzero
    rw [hzero, UInt32.zero_mul] at hback
    exact h hback.symm
  have hone : 1 ≤ sum * 0x144cbc89 := UInt32.not_lt.mp fun hlt => hne (UInt32.lt_one_iff.mp hlt)
  have hpos : 1 ≤ (sum * 0x144cbc89).toNat := UInt32.le_iff_toNat_le.mp hone
  unfold roundsLeft
  rw [hnext, UInt32.toNat_sub_of_le _ _ hone, UInt32.toNat_one]
  omega

/-- The rounds of `xxtea_long_decrypt`. -/
def decryptWhile (k : List Word) (n : Nat) (sum : Word) (s : List Word × Word) :
    Option (List Word) :=
  if sum = 0 then some s.1
  else (decryptRound k n sum s).bind (decryptWhile k n (sum - XXTEA_DELTA))
  termination_by roundsLeft sum
  decreasing_by exact roundsLeft_lt ‹_›

/-- `xxtea_long_decrypt`. -/
def xxteaLongDecrypt (v : List Word) (len : Word) (k : List Word) : Option (List Word) :=
  let n := len - 1
  (load v n.toNat).bind fun _ => (load v 0).bind fun y => (roundCount n).bind fun q =>
    if n < 1 then some v else decryptWhile k n.toNat (q * XXTEA_DELTA) (v, y)

/-! ## No access lies outside -/

theorem keyIndex_lt (sum : Word) (p : Nat) : keyIndex sum p < 4 := by
  unfold keyIndex
  rw [UInt32.toNat_xor, UInt32.toNat_and, UInt32.toNat_and]
  have hand : ∀ n, n &&& 3 < 2 ^ 2 := fun n => Nat.and_lt_two_pow n (by decide)
  exact Nat.xor_lt_two_pow (hand _) (hand _)

/-- The places around `p`, in a ring of `len`. -/
def prev (len p : Nat) : Nat := if p = 0 then len - 1 else p - 1

def next (len p : Nat) : Nat := if p + 1 = len then 0 else p + 1

/-- What is added to the word `p`, or taken from it. -/
def mixAt (k : List Word) (sum : Word) (v : List Word) (p : Nat) : Word :=
  mixWord (k.getD (keyIndex sum p) 0) sum (v.getD (prev v.length p) 0)
    (v.getD (next v.length p) 0)

/-- An assignment between the two neighbours of a word changes it by what is mixed for it. -/
theorem assignAt_eq {k v : List Word} {p : Nat} (op : Word → Word → Word) (hk : k.length = 4)
    (hp : p < v.length) (sum : Word) :
    assignAt op k sum v p (v.getD (prev v.length p) 0) (v.getD (next v.length p) 0) =
      some (alterAt op (mixAt k sum) v p, (alterAt op (mixAt k sum) v p).getD p 0) := by
  have hkey : load k (keyIndex sum p) = some (k.getD (keyIndex sum p) 0) := by
    have := keyIndex_lt sum p
    exact load_getD (by omega) 0
  have hword : v.getD p 0 = v[p] := by simp [hp]
  have halter : alterAt op (mixAt k sum) v p = v.set p (op v[p] (mixAt k sum v p)) := by
    unfold alterAt
    rw [List.modify_eq_set_getElem?]
    simp [hp]
  unfold assignAt
  rw [load_getD hp 0, hkey, Option.bind_some, Option.bind_some, hword]
  show (store v p (op v[p] (mixAt k sum v p))).map _ = _
  rw [store_set hp, halter]
  simp [hp, mixAt]

section Rounds

variable {k v : List Word} {n : Nat}

/-- One round as a sequence of changes. -/
def encryptedRound (k : List Word) (sum : Word) (v : List Word) : List Word :=
  (List.range v.length).foldl (alterAt (· + ·) (mixAt k sum)) v

def decryptedRound (k : List Word) (sum : Word) (v : List Word) : List Word :=
  (List.range v.length).reverse.foldl (alterAt (· - ·) (mixAt k sum)) v

theorem length_alters (op : Word → Word → Word) (mix : List Word → Nat → Word) (ps : List Nat)
    (v : List Word) : (ps.foldl (alterAt op mix) v).length = v.length :=
  foldl_keeps (I := fun w : List Word => w.length = v.length)
    (fun p _ w hw => by simpa using hw) rfl

/-- The `for` of an encryption round, up to `m`. -/
theorem encryptFor_eq (hk : k.length = 4) (hv : v.length = n + 1) (sum : Word) {m : Nat}
    (hm : m ≤ n) :
    (List.range m).foldlM (fun (s : List Word × Word) p =>
        (load s.1 (p + 1 : Nat)).bind fun y => assignAt (· + ·) k sum s.1 p s.2 y)
        (v, v.getD n 0) =
      some ((List.range m).foldl (alterAt (· + ·) (mixAt k sum)) v,
        ((List.range m).foldl (alterAt (· + ·) (mixAt k sum)) v).getD (prev (n + 1) m) 0) := by
  induction m with
  | zero => rfl
  | succ m ih =>
      have hlen := length_alters (· + ·) (mixAt k sum) (List.range m) v
      generalize hw : (List.range m).foldl (alterAt (· + ·) (mixAt k sum)) v = w at ih hlen
      have hnext : next w.length m = m + 1 := if_neg (by omega)
      have hprev : prev (n + 1) (m + 1) = m := if_neg (by omega)
      rw [List.range_succ, List.foldlM_append, ih (by omega), List.foldl_append, hw, hprev]
      have hassign := assignAt_eq (· + ·) hk (by omega : m < w.length) sum
      rw [hnext, hlen, hv] at hassign
      show ((load w (m + 1 : Nat)).bind fun y => assignAt _ k sum w m _ y).bind _ = _
      rw [load_getD (by omega) 0, Option.bind_some, hassign]
      rfl

theorem encryptRound_eq (hk : k.length = 4) (hv : v.length = n + 1) (hn : 0 < n) (sum : Word) :
    encryptRound k n sum (v, v.getD n 0) =
      some (encryptedRound k sum v, (encryptedRound k sum v).getD n 0) := by
  have hlen := length_alters (· + ·) (mixAt k sum) (List.range n) v
  unfold encryptRound encryptedRound
  rw [encryptFor_eq hk hv sum (Nat.le_refl n), hv, List.range_succ, List.foldl_append]
  generalize (List.range n).foldl (alterAt (· + ·) (mixAt k sum)) v = w at hlen
  have hnext : next w.length n = 0 := if_pos (by omega)
  have hassign := assignAt_eq (· + ·) hk (by omega : n < w.length) sum
  rw [hnext, hlen, hv] at hassign
  have hfirst : load w 0 = some (w.getD 0 0) := load_getD (by omega : 0 < w.length) 0
  rw [Option.bind_some]
  show ((load w 0).bind fun y => assignAt _ k sum w n _ y) = _
  rw [hfirst, Option.bind_some, hassign]
  rfl

/-- The `for` of a decryption round, from `p` down. -/
theorem decryptFor_eq (hk : k.length = 4) (hv : v.length = n + 1) (sum : Word) {p : Nat}
    (hp : p ≤ n) :
    (List.range' 1 p).reverse.foldlM (fun (s : List Word × Word) p =>
        (load s.1 (p - 1 : Nat)).bind fun z => assignAt (· - ·) k sum s.1 p z s.2)
        (v, v.getD (next (n + 1) p) 0) =
      some ((List.range' 1 p).reverse.foldl (alterAt (· - ·) (mixAt k sum)) v,
        ((List.range' 1 p).reverse.foldl (alterAt (· - ·) (mixAt k sum)) v).getD
          (next (n + 1) 0) 0) := by
  induction p generalizing v with
  | zero => rfl
  | succ p ih =>
      have hlist : (List.range' 1 (p + 1)).reverse = (p + 1) :: (List.range' 1 p).reverse := by
        rw [List.range'_1_concat, List.reverse_append, Nat.add_comm 1 p]
        rfl
      have hprev : prev v.length (p + 1) = p := if_neg (by omega)
      have hassign := assignAt_eq (· - ·) hk (by omega : p + 1 < v.length) sum
      rw [hprev, hv] at hassign
      have hlen : (alterAt (· - ·) (mixAt k sum) v (p + 1)).length = n + 1 := by
        rw [length_alterAt, hv]
      have hnext : next (n + 1) p = p + 1 := if_neg (by omega)
      have hrest := ih hlen (by omega)
      rw [hnext] at hrest
      rw [hlist, List.foldlM_cons, List.foldl_cons]
      show ((load v p).bind fun z => assignAt _ k sum v (p + 1) z _).bind _ = _
      rw [load_getD (by omega) 0, Option.bind_some, hassign, Option.bind_some]
      exact hrest

theorem decryptRound_eq (hk : k.length = 4) (hv : v.length = n + 1) (hn : 0 < n) (sum : Word) :
    decryptRound k n sum (v, v.getD 0 0) =
      some (decryptedRound k sum v, (decryptedRound k sum v).getD 0 0) := by
  have hlast : next (n + 1) n = 0 := if_pos rfl
  have hfor := decryptFor_eq hk hv sum (Nat.le_refl n)
  rw [hlast] at hfor
  have hlist : (List.range (n + 1)).reverse = (List.range' 1 n).reverse ++ [0] := by
    rw [List.range_eq_range', List.range'_succ, List.reverse_cons]
  have hlen := length_alters (· - ·) (mixAt k sum) (List.range' 1 n).reverse v
  unfold decryptRound decryptedRound
  rw [hfor, hv, hlist, List.foldl_append]
  generalize (List.range' 1 n).reverse.foldl (alterAt (· - ·) (mixAt k sum)) v = w at hlen
  have hprev : prev w.length 0 = n := by
    unfold prev
    rw [if_pos rfl]
    omega
  have hassign := assignAt_eq (· - ·) hk (by omega : 0 < w.length) sum
  rw [hprev, hlen, hv] at hassign
  rw [Option.bind_some]
  show ((load w n).bind fun z => assignAt _ k sum w 0 z _) = _
  rw [load_getD (by omega) 0, Option.bind_some, hassign]
  rfl

/-! ## The rounds -/

/-- `sum` in round `j`, counted from one. -/
def roundSum (j : Nat) : Word := UInt32.ofNat j * XXTEA_DELTA

def encrypted (k : List Word) (q : Nat) (v : List Word) : List Word :=
  (List.range' 1 q).foldl (fun w j => encryptedRound k (roundSum j) w) v

def decrypted (k : List Word) (q : Nat) (v : List Word) : List Word :=
  (List.range' 1 q).reverse.foldl (fun w j => decryptedRound k (roundSum j) w) v

theorem roundSum_succ (j : Nat) : roundSum (j + 1) = roundSum j + XXTEA_DELTA := by
  unfold roundSum
  rw [UInt32.ofNat_add, UInt32.add_mul]
  rfl

theorem roundSum_ne_zero {j : Nat} (h0 : 0 < j) (h : j < 2 ^ 32) : roundSum j ≠ 0 := by
  intro hzero
  have hback : UInt32.ofNat j = roundSum j * 0x144cbc89 := by
    unfold roundSum XXTEA_DELTA
    grind
  have htoNat := congrArg UInt32.toNat hback
  rw [hzero, UInt32.zero_mul, UInt32.toNat_ofNat_of_lt' h, UInt32.toNat_zero] at htoNat
  omega

theorem length_encryptedRound (sum : Word) : (encryptedRound k sum v).length = v.length :=
  length_alters ..

theorem length_decryptedRound (sum : Word) : (decryptedRound k sum v).length = v.length :=
  length_alters ..

theorem encryptWhile_eq (hk : k.length = 4) (hv : v.length = n + 1) (hn : 0 < n) (q a : Nat) :
    encryptWhile k n q (roundSum a) (v, v.getD n 0) =
      some ((List.range' (a + 1) q).foldl (fun w j => encryptedRound k (roundSum j) w) v) := by
  induction q generalizing v a with
  | zero => rfl
  | succ q ih =>
      have hlen : (encryptedRound k (roundSum (a + 1)) v).length = n + 1 := by
        rw [length_encryptedRound, hv]
      rw [encryptWhile, ← roundSum_succ, encryptRound_eq hk hv hn, Option.bind_some, ih hlen,
        List.range'_succ, List.foldl_cons]

theorem decryptWhile_eq (hk : k.length = 4) (hv : v.length = n + 1) (hn : 0 < n) {q : Nat}
    (hq : q < 2 ^ 32) :
    decryptWhile k n (roundSum q) (v, v.getD 0 0) = some (decrypted k q v) := by
  induction q generalizing v with
  | zero =>
      have hzero : roundSum 0 = 0 := by decide
      rw [decryptWhile, if_pos hzero]
      rfl
  | succ q ih =>
      have hne := roundSum_ne_zero (Nat.succ_pos q) hq
      have hsum : roundSum (q + 1) - XXTEA_DELTA = roundSum q := by
        rw [roundSum_succ, UInt32.add_sub_cancel]
      have hlen : (decryptedRound k (roundSum (q + 1)) v).length = n + 1 := by
        rw [length_decryptedRound, hv]
      rw [decryptWhile, if_neg hne, decryptRound_eq hk hv hn, Option.bind_some, hsum,
        ih hlen (by omega)]
      unfold decrypted
      rw [List.range'_1_concat, List.reverse_append, Nat.add_comm 1 q]
      rfl

end Rounds

/-! ## Decryption is the inverse -/

section Inverse

variable {k v : List Word}

theorem getD_modify_of_ne {p q : Nat} (h : q ≠ p) (f : Word → Word) (v : List Word) :
    (v.modify p f).getD q 0 = v.getD q 0 := by
  simp [List.getD_eq_getElem?_getD, List.getElem?_modify_ne f v h.symm]

/-- What is mixed for a word does not depend on it, for its neighbours are others. -/
theorem mixAt_modify {p : Nat} (hv : 1 < v.length) (sum : Word) (f : Word → Word) :
    mixAt k sum (v.modify p f) p = mixAt k sum v p := by
  have hprev : prev v.length p ≠ p := by
    unfold prev
    split <;> omega
  have hnext : next v.length p ≠ p := by
    unfold next
    split <;> omega
  unfold mixAt
  rw [List.length_modify, getD_modify_of_ne hprev, getD_modify_of_ne hnext]

theorem decryptedRound_encryptedRound (hv : 1 < v.length) (sum : Word) :
    decryptedRound k sum (encryptedRound k sum v) = v := by
  unfold decryptedRound
  rw [length_encryptedRound]
  refine foldl_reverse (I := fun w : List Word => w.length = v.length) ?_ ?_ rfl
  · intro p _ w hw
    rw [length_alterAt, hw]
  · intro p _ w hw
    exact alterAt_alterAt (fun x m => UInt32.add_sub_cancel x m)
      (fun f => mixAt_modify (by omega) sum f)

theorem encryptedRound_decryptedRound (hv : 1 < v.length) (sum : Word) :
    encryptedRound k sum (decryptedRound k sum v) = v := by
  have hlist : List.range v.length = (List.range v.length).reverse.reverse :=
    (List.reverse_reverse _).symm
  unfold encryptedRound
  rw [length_decryptedRound, hlist]
  refine foldl_reverse (I := fun w : List Word => w.length = v.length) ?_ ?_ rfl
  · intro p _ w hw
    rw [length_alterAt, hw]
  · intro p _ w hw
    exact alterAt_alterAt (fun x m => UInt32.sub_add_cancel x m)
      (fun f => mixAt_modify (by omega) sum f)

theorem decrypted_encrypted (hv : 1 < v.length) (q : Nat) :
    decrypted k q (encrypted k q v) = v := by
  refine foldl_reverse (I := fun w : List Word => 1 < w.length) ?_ ?_ hv
  · intro j _ w hw
    rw [length_encryptedRound]
    exact hw
  · intro j _ w hw
    exact decryptedRound_encryptedRound hw (roundSum j)

theorem encrypted_decrypted (hv : 1 < v.length) (q : Nat) :
    encrypted k q (decrypted k q v) = v := by
  have hlist : List.range' 1 q = (List.range' 1 q).reverse.reverse :=
    (List.reverse_reverse _).symm
  unfold encrypted
  rw [hlist]
  refine foldl_reverse (I := fun w : List Word => 1 < w.length) ?_ ?_ hv
  · intro j _ w hw
    rw [length_decryptedRound]
    exact hw
  · intro j _ w hw
    exact encryptedRound_decryptedRound hw (roundSum j)

theorem length_encrypted (q : Nat) : (encrypted k q v).length = v.length :=
  foldl_keeps (I := fun w : List Word => w.length = v.length)
    (fun _ _ _ hw => (length_encryptedRound _).trans hw) rfl

theorem length_decrypted (q : Nat) : (decrypted k q v).length = v.length :=
  foldl_keeps (I := fun w : List Word => w.length = v.length)
    (fun _ _ _ hw => (length_decryptedRound _).trans hw) rfl

/-- `q`, for an array of this many words. -/
def rounds (len : Nat) : Nat := 6 + 52 / len

theorem roundCount_eq {len : Nat} (h0 : 0 < len) (h : len < 2 ^ 32) :
    roundCount (UInt32.ofNat len - 1) = some (UInt32.ofNat (rounds len)) ∧
      (UInt32.ofNat (rounds len)).toNat = rounds len := by
  have hle : 52 / len ≤ 52 := Nat.div_le_self 52 len
  have hlen : (UInt32.ofNat len).toNat = len := UInt32.toNat_ofNat_of_lt' h
  have hrounds : (UInt32.ofNat (rounds len)).toNat = rounds len := by
    unfold rounds
    exact UInt32.toNat_ofNat_of_lt' (by rw [UInt32.size]; omega)
  refine ⟨?_, hrounds⟩
  have hne : UInt32.ofNat len ≠ 0 := by
    intro hzero
    rw [hzero, UInt32.toNat_zero] at hlen
    omega
  unfold roundCount
  rw [UInt32.sub_add_cancel, if_neg hne, Option.some_inj]
  apply UInt32.toNat_inj.mp
  rw [hrounds, UInt32.toNat_add, UInt32.toNat_div, hlen]
  have hlt : 6 + 52 / len < 2 ^ 32 := by omega
  exact Nat.mod_eq_of_lt hlt

/-- `n`, the last place of an array of this many words. -/
theorem toNat_last {len : Nat} (h0 : 0 < len) (h : len < 2 ^ 32) :
    (UInt32.ofNat len - 1).toNat = len - 1 := by
  have hlen : (UInt32.ofNat len).toNat = len := UInt32.toNat_ofNat_of_lt' h
  have hle : 1 ≤ UInt32.ofNat len := by
    rw [UInt32.le_iff_toNat_le, hlen]
    exact h0
  rw [UInt32.toNat_sub_of_le _ _ hle, hlen]
  rfl

theorem not_last_lt_one {len : Nat} (h1 : 1 < len) (h : len < 2 ^ 32) :
    ¬ UInt32.ofNat len - 1 < 1 := by
  rw [UInt32.lt_iff_toNat_lt, toNat_last (by omega) h, UInt32.toNat_one]
  omega

theorem xxteaLongEncrypt_eq (hk : k.length = 4) (hv : 1 < v.length) (h : v.length < 2 ^ 32) :
    xxteaLongEncrypt v (UInt32.ofNat v.length) k = some (encrypted k (rounds v.length) v) := by
  obtain ⟨hcount, hq⟩ := roundCount_eq (by omega : 0 < v.length) h
  have hlast := toNat_last (by omega : 0 < v.length) h
  have hmore := not_last_lt_one hv h
  have hfirst : load v 0 = some (v.getD 0 0) := load_getD (by omega : 0 < v.length) 0
  have hsucc : v.length = v.length - 1 + 1 := by omega
  have hrounds := encryptWhile_eq hk hsucc (by omega) (rounds v.length) 0
  unfold xxteaLongEncrypt
  dsimp only
  rw [hlast, load_getD (by omega) 0, hfirst, hcount, Option.bind_some, Option.bind_some,
    Option.bind_some, if_neg hmore, hq]
  exact hrounds

theorem xxteaLongDecrypt_eq (hk : k.length = 4) (hv : 1 < v.length) (h : v.length < 2 ^ 32) :
    xxteaLongDecrypt v (UInt32.ofNat v.length) k = some (decrypted k (rounds v.length) v) := by
  obtain ⟨hcount, hq⟩ := roundCount_eq (by omega : 0 < v.length) h
  have hlast := toNat_last (by omega : 0 < v.length) h
  have hmore := not_last_lt_one hv h
  have hfirst : load v 0 = some (v.getD 0 0) := load_getD (by omega : 0 < v.length) 0
  have hlt : rounds v.length < 2 ^ 32 := by
    rw [← hq]
    exact UInt32.toNat_lt _
  have hsucc : v.length = v.length - 1 + 1 := by omega
  have hrounds := decryptWhile_eq hk hsucc (by omega) hlt
  unfold xxteaLongDecrypt
  dsimp only
  rw [hlast, load_getD (by omega) 0, hfirst, hcount, Option.bind_some, Option.bind_some,
    Option.bind_some, if_neg hmore]
  exact hrounds

/-- An array of one word is left as it is. -/
theorem xxteaLongDecrypt_one (x : Word) : xxteaLongDecrypt [x] 1 k = some [x] := rfl

/-- Without a word there is no `v[n]`. -/
theorem xxteaLongDecrypt_nil : xxteaLongDecrypt [] 0 k = none := rfl

/-- Where there is a word, decryption makes an array of the same size. -/
theorem exists_xxteaLongDecrypt (hk : k.length = 4) (h0 : 0 < v.length) (h : v.length < 2 ^ 32) :
    ∃ w, xxteaLongDecrypt v (UInt32.ofNat v.length) k = some w ∧ w.length = v.length := by
  by_cases hmore : 1 < v.length
  · exact ⟨_, xxteaLongDecrypt_eq hk hmore h, length_decrypted _⟩
  · obtain ⟨x, rfl⟩ := List.length_eq_one_iff.mp (by omega : v.length = 1)
    exact ⟨[x], xxteaLongDecrypt_one x, rfl⟩

/-- **What decrypts to `w` is what `w` encrypts to.** -/
theorem xxteaLongDecrypt_eq_some_iff {w : List Word} (hk : k.length = 4) (hv : 1 < v.length)
    (h : v.length < 2 ^ 32) :
    xxteaLongDecrypt v (UInt32.ofNat v.length) k = some w ↔
      w.length = v.length ∧ xxteaLongEncrypt w (UInt32.ofNat w.length) k = some v := by
  rw [xxteaLongDecrypt_eq hk hv h, Option.some_inj]
  constructor
  · intro hw
    subst hw
    have hlen := length_decrypted (k := k) (v := v) (rounds v.length)
    refine ⟨hlen, ?_⟩
    rw [xxteaLongEncrypt_eq hk (by omega) (by omega), hlen, encrypted_decrypted hv]
  · intro hw
    obtain ⟨hlen, henc⟩ := hw
    rw [xxteaLongEncrypt_eq hk (by omega) (by omega), Option.some_inj] at henc
    rw [← henc, length_encrypted, decrypted_encrypted (by omega)]

end Inverse

end NanomsgDemo.Utils

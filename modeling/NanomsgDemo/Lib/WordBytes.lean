import Mathlib.Algebra.GroupWithZero.Nat
import Mathlib.Data.List.Basic
import Mathlib.Data.Nat.Bitwise

/-!
# The bytes of an array of words

Words of 32 bits as they lie in memory, the lowest byte first. An array of words is
determined by its bytes, and putting a byte where there is a zero, by a shift and a
bitwise or, changes the bytes at this one place.
-/

namespace WordBytes

/-- The byte of a word at a place, counted from the lowest. -/
def byte (w : UInt32) (j : Nat) : UInt8 := UInt8.ofNat (w.toNat / 256 ^ j)

def bytes : List UInt32 → List UInt8
  | [] => []
  | w :: ws => byte w 0 :: byte w 1 :: byte w 2 :: byte w 3 :: bytes ws

variable {v w : List UInt32} {x y : UInt32}

@[simp] theorem length_bytes (v : List UInt32) : (bytes v).length = 4 * v.length := by
  induction v with
  | nil => rfl
  | cons x v ih =>
      simp only [bytes, List.length_cons, ih]
      omega

theorem bytes_append (v w : List UInt32) : bytes (v ++ w) = bytes v ++ bytes w := by
  induction v with
  | nil => rfl
  | cons x v ih => simp [bytes, ih]

theorem bytes_replicate_zero (n : Nat) :
    bytes (List.replicate n 0) = List.replicate (4 * n) 0 := by
  induction n with
  | zero => rfl
  | succ n ih =>
      have hzero : ∀ j, byte 0 j = 0 := fun j => by simp [byte]
      rw [List.replicate_succ, bytes, ih, hzero, hzero, hzero, hzero]
      rfl

theorem getElem?_bytes (v : List UInt32) (i : Nat) :
    (bytes v)[i]? = v[i / 4]?.map fun w => byte w (i % 4) := by
  induction v generalizing i with
  | nil => rfl
  | cons x v ih =>
      match i with
      | 0 | 1 | 2 | 3 => rfl
      | i + 4 =>
          have hdiv : (i + 4) / 4 = i / 4 + 1 := by omega
          have hmod : (i + 4) % 4 = i % 4 := by omega
          rw [hdiv, hmod, List.getElem?_cons_succ, ← ih]
          rfl

/-! ## The bytes determine the words -/

theorem toNat_byte (x : UInt32) (j : Nat) : (byte x j).toNat = x.toNat / 256 ^ j % 256 := by
  unfold byte
  rw [UInt8.toNat_ofNat']

theorem byte_injective (h : ∀ j < 4, byte x j = byte y j) : x = y := by
  have hx := x.toNat_lt
  have hy := y.toNat_lt
  have hdigit : ∀ j < 4, x.toNat / 256 ^ j % 256 = y.toNat / 256 ^ j % 256 := by
    intro j hj
    rw [← toNat_byte, ← toNat_byte, h j hj]
  have h0 := hdigit 0 (by omega)
  have h1 := hdigit 1 (by omega)
  have h2 := hdigit 2 (by omega)
  have h3 := hdigit 3 (by omega)
  apply UInt32.toNat_inj.mp
  simp only [Nat.reducePow, Nat.div_one] at h0 h1 h2 h3
  omega

theorem bytes_injective (h : bytes v = bytes w) : v = w := by
  induction v generalizing w with
  | nil =>
      cases w with
      | nil => rfl
      | cons y w => cases h
  | cons x v ih =>
      cases w with
      | nil => cases h
      | cons y w =>
          injection h with h0 h
          injection h with h1 h
          injection h with h2 h
          injection h with h3 h
          have hxy : x = y := by
            refine byte_injective ?_
            intro j hj
            match j with
            | 0 => exact h0
            | 1 => exact h1
            | 2 => exact h2
            | 3 => exact h3
          rw [hxy, ih h]

/-- The word of four bytes. -/
def word (a b c d : UInt8) : UInt32 :=
  UInt32.ofNat (a.toNat + 2 ^ 8 * b.toNat + 2 ^ 16 * c.toNat + 2 ^ 24 * d.toNat)

/-- The words whose bytes these are, as far as there are four bytes for a word. -/
def words : List UInt8 → List UInt32
  | a :: b :: c :: d :: rest => word a b c d :: words rest
  | _ => []

/-! ## One byte at a time -/

/-- The lowest byte of a shifted word. -/
theorem shiftRight_and {s : UInt32} {r : Nat} (hs : s.toNat = 8 * r) (hr : r < 4) :
    (x >>> s &&& 0xff).toUInt8 = byte x r := by
  apply UInt8.toNat_inj.mp
  have hmod : s.toNat % 32 = 8 * r := by omega
  have hand : ∀ n, n &&& 255 = n % 256 := fun n => Nat.and_two_pow_sub_one_eq_mod n 8
  rw [UInt32.toNat_toUInt8, UInt32.toNat_and, UInt32.toNat_shiftRight, hmod, toNat_byte,
    Nat.shiftRight_eq_div_pow, Nat.pow_mul]
  show (x.toNat / 256 ^ r &&& 255) % 256 = _
  rw [hand, Nat.mod_mod]

/-- A digit is seen at its own place only. -/
theorem digit_eq_zero {b r j : Nat} (hb : b < 256) (hne : j ≠ r) :
    b * 256 ^ r / 256 ^ j % 256 = 0 := by
  rcases Nat.lt_or_gt_of_ne hne with hlt | hgt
  · obtain ⟨d, rfl⟩ : ∃ d, r = j + (d + 1) := ⟨r - j - 1, by omega⟩
    have hmul : b * 256 ^ (j + (d + 1)) = 256 ^ j * (b * 256 ^ d * 256) := by
      rw [Nat.pow_add, Nat.pow_succ, Nat.mul_left_comm, Nat.mul_assoc]
    rw [hmul, Nat.mul_div_cancel_left _ (Nat.pow_pos (by decide)), Nat.mul_mod_left]
  · obtain ⟨d, rfl⟩ : ∃ d, j = r + (d + 1) := ⟨j - r - 1, by omega⟩
    have hsmall : b < 256 ^ (d + 1) := by
      rw [Nat.pow_succ]
      exact Nat.lt_of_lt_of_le hb (Nat.le_mul_of_pos_left 256 (Nat.pow_pos (by decide)))
    rw [Nat.pow_add, Nat.mul_comm b, Nat.mul_div_mul_left _ _ (Nat.pow_pos (by decide)),
      Nat.div_eq_of_lt hsmall]

/-- A byte that is put into a word by `|` meets the byte that is there, and no other. -/
theorem byte_or_shiftLeft {s : UInt32} {r : Nat} (hs : s.toNat = 8 * r) (hr : r < 4) (b : UInt8)
    (j : Nat) :
    byte (x ||| b.toUInt32 <<< s) j = if j = r then byte x j ||| b else byte x j := by
  have hb := b.toNat_lt
  have hmod : s.toNat % 32 = 8 * r := by omega
  have hshift : ∀ n, n <<< (8 * r) = n * 256 ^ r := by
    intro n
    rw [Nat.shiftLeft_eq, Nat.pow_mul]
  have hfits : b.toNat * 256 ^ r < 2 ^ 32 :=
    calc b.toNat * 256 ^ r < 256 * 256 ^ r :=
          Nat.mul_lt_mul_of_pos_right hb (Nat.pow_pos (by decide))
      _ = 256 ^ (r + 1) := (Nat.pow_succ' ..).symm
      _ ≤ 256 ^ 4 := Nat.pow_le_pow_right (by decide) hr
      _ = 2 ^ 32 := rfl
  have hor : (x ||| b.toUInt32 <<< s).toNat = x.toNat ||| b.toNat * 256 ^ r := by
    rw [UInt32.toNat_or, UInt32.toNat_shiftLeft, hmod, UInt8.toNat_toUInt32, hshift,
      Nat.mod_eq_of_lt hfits]
  have hdiv : ∀ n, n / 256 ^ j = n >>> (8 * j) := by
    intro n
    rw [Nat.shiftRight_eq_div_pow, Nat.pow_mul]
  have hcut : ∀ n m : Nat, (n ||| m) % 256 = n % 256 ||| m % 256 :=
    fun n m => Nat.or_mod_two_pow (n := 8)
  apply UInt8.toNat_inj.mp
  rw [toNat_byte, hor, hdiv, Nat.shiftRight_or_distrib, hcut, ← hdiv, ← hdiv, ← toNat_byte]
  split
  · rename_i hjr
    rw [hjr, Nat.mul_div_cancel _ (Nat.pow_pos (by decide)), UInt8.toNat_or,
      Nat.mod_eq_of_lt hb]
  · rename_i hjr
    rw [digit_eq_zero hb hjr, Nat.or_zero]

/-- Changing one byte of one word changes the bytes at one place. -/
theorem bytes_set {i : Nat} {b : UInt8} (hi : i / 4 < v.length)
    (hset : ∀ j < 4, byte x j = if j = i % 4 then b else byte v[i / 4] j) :
    bytes (v.set (i / 4) x) = (bytes v).set i b := by
  apply List.ext_getElem?
  intro p
  rw [getElem?_bytes, List.getElem?_set, List.getElem?_set, getElem?_bytes, length_bytes]
  by_cases hpi : i = p
  · subst hpi
    rw [if_pos rfl, if_pos hi, if_pos rfl, if_pos (by omega), Option.map_some,
      hset _ (by omega), if_pos rfl]
  · rw [if_neg hpi]
    by_cases hword : i / 4 = p / 4
    · rw [if_pos hword, if_pos hi, Option.map_some, hset _ (by omega), if_neg (by omega),
        ← hword, List.getElem?_eq_getElem hi, Option.map_some]
    · rw [if_neg hword]

end WordBytes

import Mathlib.Algebra.GroupWithZero.Nat
import Mathlib.Data.Nat.Basic

/-!
# Rounding to a number of significant bits

What a binary floating-point format of precision `p` does to a natural number in its
range: the nearest number with at most `p` significant bits, the even one of two.
Results of operations are rounded in the same way.

Rounding does not pass over a number the format has (`le_roundTo`): this is all that
is needed to bound a rounded result from below.
-/

namespace Rounding

/-- The numbers of precision `p`. -/
def Representable (p m : Nat) : Prop := ∃ q e, q < 2 ^ p ∧ m = q * 2 ^ e

/-- `x` rounded to `p` significant bits, ties to even. -/
def roundTo (p x : Nat) : Nat :=
  let ulp := 2 ^ (x.log2 + 1 - p)
  let q := x / ulp
  let r := x % ulp
  if 2 * r < ulp ∨ 2 * r = ulp ∧ q % 2 = 0 then q * ulp else (q + 1) * ulp

variable {p m x : Nat}

theorem representable_of_lt (h : m < 2 ^ p) : Representable p m := ⟨m, 0, h, by simp⟩

theorem div_mul_le_roundTo (p x : Nat) :
    x / 2 ^ (x.log2 + 1 - p) * 2 ^ (x.log2 + 1 - p) ≤ roundTo p x := by
  unfold roundTo
  dsimp only
  split
  · exact Nat.le_refl _
  · exact Nat.mul_le_mul_right _ (Nat.le_succ _)

/-- **A number of the format that is not above `x` is not above its rounding either.** -/
theorem le_roundTo (hp : 0 < p) (hm : Representable p m) (h : m ≤ x) : m ≤ roundTo p x := by
  obtain ⟨q, f, hq, hmq⟩ := hm
  refine Nat.le_trans ?_ (div_mul_le_roundTo p x)
  generalize he : x.log2 + 1 - p = e
  rcases Nat.lt_or_ge f e with hfe | hef
  · -- `m` has fewer places than `x`, so it is below the leading bit of `x` already
    have hx : x ≠ 0 := by
      intro hx
      subst hx
      simp at he
      omega
    have hle : e ≤ x.log2 := by omega
    have hlog : 2 ^ x.log2 ≤ x := Nat.log2_self_le hx
    have hlead : 2 ^ x.log2 ≤ x / 2 ^ e * 2 ^ e := by
      have hsplit : 2 ^ x.log2 = 2 ^ (x.log2 - e) * 2 ^ e := by
        rw [← Nat.pow_add]
        congr 1
        omega
      rw [hsplit] at hlog ⊢
      refine Nat.mul_le_mul_right _ ?_
      exact (Nat.le_div_iff_mul_le (Nat.two_pow_pos e)).mpr hlog
    have hsmall : m ≤ 2 ^ x.log2 := by
      calc m = q * 2 ^ f := hmq
        _ ≤ 2 ^ p * 2 ^ f := Nat.mul_le_mul_right _ (Nat.le_of_lt hq)
        _ = 2 ^ (p + f) := (Nat.pow_add 2 p f).symm
        _ ≤ 2 ^ x.log2 := Nat.pow_le_pow_right (by omega) (by omega)
    exact Nat.le_trans hsmall hlead
  · -- `m` is a multiple of the last place of `x`
    have hmul : m = q * 2 ^ (f - e) * 2 ^ e := by
      rw [hmq, Nat.mul_assoc, ← Nat.pow_add]
      congr 2
      omega
    rw [hmul] at h ⊢
    refine Nat.mul_le_mul_right _ ?_
    exact (Nat.le_div_iff_mul_le (Nat.two_pow_pos e)).mpr h

end Rounding

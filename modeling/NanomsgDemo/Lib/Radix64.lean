import Mathlib.Algebra.GroupWithZero.Nat
import Mathlib.Data.List.Basic

/-!
# Three bytes as four digits

The encoding of bytes in base 64: each group of three bytes is a number of 24 bits,
written with four digits of 6 bits. A last group of one or two bytes is filled up
with zeros, and the digits nothing of it is in are left out for padding.
-/

namespace Radix64

variable {α : Type*}

/-- The bits of three bytes. -/
def group (a b c : UInt8) : Nat := a.toNat * 2 ^ 16 + b.toNat * 2 ^ 8 + c.toNat

def encode (digit : Nat → α) (pad : α) : List UInt8 → List α
  | [] => []
  | [a] =>
      let bits := group a 0 0
      [digit (bits / 2 ^ 18 % 64), digit (bits / 2 ^ 12 % 64), pad, pad]
  | [a, b] =>
      let bits := group a b 0
      [digit (bits / 2 ^ 18 % 64), digit (bits / 2 ^ 12 % 64), digit (bits / 2 ^ 6 % 64), pad]
  | a :: b :: c :: rest =>
      let bits := group a b c
      digit (bits / 2 ^ 18 % 64) :: digit (bits / 2 ^ 12 % 64) :: digit (bits / 2 ^ 6 % 64) ::
        digit (bits % 64) :: encode digit pad rest

theorem length_encode (digit : Nat → α) (pad : α) (d : List UInt8) :
    (encode digit pad d).length = 4 * ((d.length + 2) / 3) := by
  induction d using encode.induct with
  | case1 => rfl
  | case2 a => simp [encode]
  | case3 a b => simp [encode]
  | case4 a b c rest ih =>
      simp only [encode, List.length_cons, ih]
      omega

theorem group_lt (a b c : UInt8) : group a b c < 2 ^ 24 := by
  have := a.toNat_lt
  have := b.toNat_lt
  have := c.toNat_lt
  unfold group
  omega

/-- The four digits give the number back. -/
theorem sum_digits {bits : Nat} (h : bits < 2 ^ 24) :
    ((bits / 2 ^ 18 % 64 * 2 ^ 6 + bits / 2 ^ 12 % 64) * 2 ^ 6 + bits / 2 ^ 6 % 64) * 2 ^ 6 +
      bits % 64 = bits := by
  omega

end Radix64

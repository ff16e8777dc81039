import Mathlib.Data.List.Basic

/-!
# A message in blocks

A state absorbs the whole blocks of a message, one after another, and what is left over
waits for more. When the message comes in pieces, absorbing what waits together with the
next piece is the same as absorbing the message at once.

A piece that is added to what waits does not fill the block, or it does: the lemmas on
short and long messages are these two cases.
-/

namespace Absorb

variable {σ α : Type*}

/-- The first `n` blocks of `b` elements. -/
def blocks (b : Nat) (f : σ → List α → σ) : Nat → σ → List α → σ
  | 0, s, _ => s
  | n + 1, s, l => blocks b f n (f s (l.take b)) (l.drop b)

/-- All of the whole blocks. -/
def absorb (b : Nat) (f : σ → List α → σ) (s : σ) (l : List α) : σ :=
  blocks b f (l.length / b) s l

/-- What is left over. -/
def rest (b : Nat) (l : List α) : List α := l.drop (b * (l.length / b))

theorem length_rest (b : Nat) (l : List α) : (rest b l).length = l.length % b := by
  unfold rest
  rw [List.length_drop]
  have := Nat.div_add_mod l.length b
  omega

section Blocks

variable {b n : Nat} {f : σ → List α → σ} {s : σ} {l : List α}

theorem blocks_append (h : b * n ≤ l.length) (m : List α) :
    blocks b f n s (l ++ m) = blocks b f n s l := by
  induction n generalizing s l with
  | zero => rfl
  | succ n ih =>
      rw [Nat.mul_succ] at h
      have hb : b ≤ l.length := by omega
      rw [blocks, blocks, List.take_append_of_le_length hb, List.drop_append_of_le_length hb]
      exact ih (by rw [List.length_drop]; omega)

theorem blocks_add (n k : Nat) :
    blocks b f (n + k) s l = blocks b f k (blocks b f n s l) (l.drop (b * n)) := by
  induction n generalizing s l with
  | zero => rw [Nat.zero_add, Nat.mul_zero, List.drop_zero, blocks]
  | succ n ih =>
      rw [Nat.succ_add, blocks, ih, blocks, List.drop_drop, Nat.mul_succ, Nat.add_comm b]

/-- The blocks before a place and those after it. -/
theorem length_div (hb : 0 < b) (h : b * n ≤ l.length) :
    l.length / b = n + (l.drop (b * n)).length / b := by
  have hsplit : b * n + (l.length - b * n) = l.length := Nat.add_sub_of_le h
  rw [List.length_drop, ← Nat.mul_add_div hb n, hsplit]

theorem absorb_eq (hb : 0 < b) (h : b * n ≤ l.length) :
    absorb b f s l = absorb b f (blocks b f n s l) (l.drop (b * n)) := by
  unfold absorb
  rw [length_div hb h, blocks_add]

theorem rest_eq (hb : 0 < b) (h : b * n ≤ l.length) : rest b l = rest b (l.drop (b * n)) := by
  unfold rest
  rw [length_div hb h, Nat.mul_add, List.drop_drop]

end Blocks

/-! ## Piece by piece -/

section Pieces

variable {b : Nat}

theorem absorb_append (hb : 0 < b) (f : σ → List α → σ) (s : σ) (l m : List α) :
    absorb b f s (l ++ m) = absorb b f (absorb b f s l) (rest b l ++ m) := by
  have hle : b * (l.length / b) ≤ l.length := Nat.mul_div_le l.length b
  have happ : b * (l.length / b) ≤ (l ++ m).length := by
    rw [List.length_append]
    omega
  rw [absorb_eq hb happ, blocks_append hle, List.drop_append_of_le_length hle]
  rfl

theorem rest_append (hb : 0 < b) (l m : List α) : rest b (l ++ m) = rest b (rest b l ++ m) := by
  have hle : b * (l.length / b) ≤ l.length := Nat.mul_div_le l.length b
  have happ : b * (l.length / b) ≤ (l ++ m).length := by
    rw [List.length_append]
    omega
  rw [rest_eq hb happ, List.drop_append_of_le_length hle]
  rfl

variable {l : List α}

/-- Less than a block only waits. -/
theorem absorb_short (h : l.length < b) (f : σ → List α → σ) (s : σ) : absorb b f s l = s := by
  unfold absorb
  rw [Nat.div_eq_of_lt h, blocks]

theorem rest_short (h : l.length < b) : rest b l = l := by
  unfold rest
  rw [Nat.div_eq_of_lt h, Nat.mul_zero, List.drop_zero]

/-- A block and more. -/
theorem absorb_long (hb : 0 < b) (h : b ≤ l.length) (f : σ → List α → σ) (s : σ) :
    absorb b f s l = absorb b f (f s (l.take b)) (l.drop b) := by
  have hone : b * 1 ≤ l.length := by rw [Nat.mul_one]; exact h
  rw [absorb_eq hb hone, Nat.mul_one]
  rfl

theorem rest_long (hb : 0 < b) (h : b ≤ l.length) : rest b l = rest b (l.drop b) := by
  have hone : b * 1 ≤ l.length := by rw [Nat.mul_one]; exact h
  rw [rest_eq hb hone, Nat.mul_one]

end Pieces

end Absorb

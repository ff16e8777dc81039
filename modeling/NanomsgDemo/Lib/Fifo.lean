import Mathlib.Data.List.Basic

/-!
# First in, first out

What a queue is for, told by its history: everything that was put in since it was
last emptied, and how much of that has been taken out again. The content is what is left.
-/

namespace Fifos

/-- The history of a queue since it was last emptied. -/
@[ext]
structure Fifo (α : Type*) where
  written : List α
  taken : Nat
  taken_le : taken ≤ written.length

namespace Fifo

variable {α : Type*}

def empty : Fifo α := ⟨[], 0, Nat.le_refl 0⟩

/-- What is still there. -/
def content (s : Fifo α) : List α := s.written.drop s.taken

def put (s : Fifo α) (as : List α) : Fifo α :=
  ⟨s.written ++ as, s.taken, by have := s.taken_le; rw [List.length_append]; omega⟩

theorem length_content (s : Fifo α) : s.content.length = s.written.length - s.taken :=
  List.length_drop

/-- Take `n` elements out, if that many are there. -/
def take (s : Fifo α) (n : Nat) : Fifo α :=
  if h : n ≤ s.content.length then
    ⟨s.written, s.taken + n, by have := s.taken_le; rw [length_content] at h; omega⟩
  else s

variable {s : Fifo α} {n : Nat}

@[simp] theorem content_empty : (empty : Fifo α).content = [] := rfl

@[simp] theorem written_put (s : Fifo α) (as : List α) : (s.put as).written = s.written ++ as := rfl

@[simp] theorem content_put (s : Fifo α) (as : List α) : (s.put as).content = s.content ++ as :=
  List.drop_append_of_le_length s.taken_le

@[simp] theorem written_take (s : Fifo α) (n : Nat) : (s.take n).written = s.written := by
  unfold take
  split <;> rfl

theorem content_take (h : n ≤ s.content.length) : (s.take n).content = s.content.drop n := by
  unfold take
  rw [dif_pos h]
  exact List.drop_drop.symm

theorem take_of_lt (h : s.content.length < n) : s.take n = s := dif_neg (by omega)

end Fifo

end Fifos

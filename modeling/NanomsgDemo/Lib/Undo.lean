import Mathlib.Data.List.Basic

/-!
# Undoing steps

Steps taken one after another are undone in reverse order, if each of them can be
undone (`foldl_reverse`).

The steps of a block cipher change one place of a list by a value that is made of the
other places (`alterAt`). The place is restored by the inverse operation, for the value
can be made again.
-/

namespace Undo

section Steps

variable {σ ι : Type*} {I : σ → Prop} {f g : σ → ι → σ}

theorem foldl_keeps {is : List ι} (hkeep : ∀ i ∈ is, ∀ s, I s → I (f s i)) {s : σ} (hs : I s) :
    I (is.foldl f s) := by
  induction is generalizing s with
  | nil => exact hs
  | cons i is ih =>
      have hnext := hkeep i List.mem_cons_self s hs
      exact ih (fun j hj => hkeep j (List.mem_cons_of_mem i hj)) hnext

/-- **What was done in order is undone in reverse order.** -/
theorem foldl_reverse {is : List ι} (hkeep : ∀ i ∈ is, ∀ s, I s → I (f s i))
    (hundo : ∀ i ∈ is, ∀ s, I s → g (f s i) i = s) {s : σ} (hs : I s) :
    is.reverse.foldl g (is.foldl f s) = s := by
  induction is generalizing s with
  | nil => rfl
  | cons i is ih =>
      have hnext := hkeep i List.mem_cons_self s hs
      have hrest := ih (fun j hj => hkeep j (List.mem_cons_of_mem i hj))
        (fun j hj => hundo j (List.mem_cons_of_mem i hj)) hnext
      rw [List.foldl_cons, List.reverse_cons, List.foldl_append, hrest]
      exact hundo i List.mem_cons_self s hs

end Steps

section Places

variable {α β : Type*} {op op' : α → β → α} {mix : List α → Nat → β} {v : List α} {p : Nat}

/-- Change the place `p` by a value that is made for it. -/
def alterAt (op : α → β → α) (mix : List α → Nat → β) (v : List α) (p : Nat) : List α :=
  v.modify p fun x => op x (mix v p)

@[simp] theorem length_alterAt : (alterAt op mix v p).length = v.length := List.length_modify ..

/-- A value that does not depend on the place itself can be taken back. -/
theorem alterAt_alterAt (hop : ∀ x m, op' (op x m) m = x)
    (hmix : ∀ f, mix (v.modify p f) p = mix v p) :
    alterAt op' mix (alterAt op mix v p) p = v := by
  unfold alterAt
  rw [hmix, List.modify_modify_eq]
  have hid : ((fun x => op' x (mix v p)) ∘ fun x => op x (mix v p)) = id := by
    funext x
    exact hop x (mix v p)
  rw [hid, List.modify_id]

end Places

end Undo

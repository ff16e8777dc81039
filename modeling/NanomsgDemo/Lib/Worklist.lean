import Mathlib.Algebra.GroupWithZero.Nat
import Mathlib.Data.List.Perm.Basic

/-!
# Worklists

A queue of nodes: the first one is taken out, its outputs are folded into a state, and
its children go to the end of the queue. There is no record of what was visited.

Below a node whose descendants form a finite tree (`Below`), every output comes out once
(`run_below`), and the number of rounds is the number of nodes. The order is that of the
queue, not that of the tree.
-/

namespace Worklist

variable {ν ω : Type*}

/-- Work on a queue until it is empty; `none` if the fuel does not last. -/
def run {σ : Type*} (out : ν → List ω) (children : ν → List ν) (f : σ → ω → σ) :
    (fuel : Nat) → σ → List ν → Option σ
  | 0, _, _ => none
  | _ + 1, s, [] => some s
  | fuel + 1, s, n :: queue =>
      run out children f fuel ((out n).foldl f s) (queue ++ children n)

/-- A node with the number of nodes from it on down, and all of their outputs. -/
structure Tally (ν ω : Type*) where
  node : ν
  nodes : Nat
  outputs : List ω

/-- What is below a node, counted from its children up. -/
inductive Below (out : ν → List ω) (children : ν → List ν) : Tally ν ω → Prop where
  | intro {n : ν} (below : List (Tally ν ω)) (hchildren : below.map Tally.node = children n)
      (h : ∀ t ∈ below, Below out children t) :
      Below out children
        ⟨n, 1 + (below.map Tally.nodes).sum, out n ++ below.flatMap Tally.outputs⟩

variable {out : ν → List ω} {children : ν → List ν}

/-- **Every output comes out once.** -/
theorem run_below {queue : List (Tally ν ω)} (h : ∀ t ∈ queue, Below out children t) :
    ∃ calls : List ω, calls.Perm (queue.flatMap Tally.outputs) ∧
      ∀ (σ : Type) (f : σ → ω → σ) (s : σ) (fuel : Nat), (queue.map Tally.nodes).sum < fuel →
        run out children f fuel s (queue.map Tally.node) = some (calls.foldl f s) := by
  -- every round takes one node off the total
  generalize htotal : (queue.map Tally.nodes).sum = total
  induction total using Nat.strongRecOn generalizing queue with
  | ind total ih =>
      cases queue with
      | nil =>
          refine ⟨[], List.Perm.refl _, ?_⟩
          intro σ f s fuel hfuel
          obtain ⟨fuel, rfl⟩ := Nat.exists_eq_add_one_of_ne_zero (by omega : fuel ≠ 0)
          rfl
      | cons t queue =>
          cases h t List.mem_cons_self with
          | @intro n below hchildren hbelow =>
              have hrest : ∀ u ∈ queue ++ below, Below out children u := by
                intro u hu
                rcases List.mem_append.mp hu with hu | hu
                · exact h u (List.mem_cons_of_mem _ hu)
                · exact hbelow u hu
              have hsum : ((queue ++ below).map Tally.nodes).sum + 1 = total := by
                rw [← htotal, List.map_append, List.sum_append, List.map_cons, List.sum_cons]
                dsimp only
                omega
              obtain ⟨calls, hperm, hrun⟩ := ih _ (by omega) hrest rfl
              refine ⟨out n ++ calls, ?_, ?_⟩
              · rw [List.flatMap_append] at hperm
                rw [List.flatMap_cons, List.append_assoc]
                exact (hperm.trans List.perm_append_comm).append_left (out n)
              · intro σ f s fuel hfuel
                obtain ⟨fuel, rfl⟩ := Nat.exists_eq_add_one_of_ne_zero (by omega : fuel ≠ 0)
                have hnext := hrun σ f ((out n).foldl f s) fuel (by omega)
                rw [List.map_append, hchildren] at hnext
                rw [List.map_cons, run, hnext, List.foldl_append]

end Worklist

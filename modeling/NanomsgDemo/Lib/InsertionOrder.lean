import Mathlib.Data.List.Nodup
import Mathlib.Logic.Function.Basic

/-!
# Sets in order of insertion

A list holds a set of objects in the order in which they were put in (`Listed`) when
it repeats none, its objects are those that have a time of insertion, and these times
increase along it.
-/

namespace InsertionOrder

variable {κ : Type*}

/-- The list holds what `since` has an insertion time for, in the order of these times. -/
structure Listed (live : List κ) (since : κ → Option Nat) (clock : Nat) : Prop where
  once : live.Nodup
  mem_iff : ∀ t, t ∈ live ↔ (since t).isSome
  inOrder : live.Pairwise fun a b => since a < since b
  past : ∀ t n, since t = some n → n < clock

variable {live : List κ} {since : κ → Option Nat} {clock : Nat} {t : κ}

theorem listed_nil : Listed ([] : List κ) (fun _ => none) 0 where
  once := List.nodup_nil
  mem_iff := by
    intro t
    simp
  inOrder := List.Pairwise.nil
  past := by
    intro t n h
    cases h

theorem Listed.tick (h : Listed live since clock) : Listed live since (clock + 1) :=
  { h with past := fun t n ht => Nat.lt_succ_of_lt (h.past t n ht) }

variable [DecidableEq κ]

/-- What is put in now comes last. -/
theorem Listed.push (h : Listed live since clock) (ht : t ∉ live) :
    Listed (live ++ [t]) (Function.update since t (some clock)) (clock + 1) := by
  have hold : ∀ a ∈ live, Function.update since t (some clock) a = since a := by
    intro a ha
    have hat : a ≠ t := by
      intro hat
      exact ht (hat ▸ ha)
    exact Function.update_of_ne hat ..
  constructor
  · rw [← List.concat_eq_append]
    exact h.once.concat ht
  · intro u
    by_cases hu : u = t
    · simp [hu]
    · simp [hu, h.mem_iff u]
  · refine List.pairwise_append.mpr ⟨?_, List.pairwise_singleton .., ?_⟩
    · refine h.inOrder.imp_of_mem ?_
      intro a b ha hb hab
      rw [hold a ha, hold b hb]
      exact hab
    · -- whatever is there was put in before
      intro a ha b hb
      obtain rfl := List.mem_singleton.mp hb
      obtain ⟨n, hn⟩ := Option.isSome_iff_exists.mp ((h.mem_iff a).mp ha)
      rw [hold a ha, Function.update_self, hn]
      exact h.past a n hn
  · intro u n hu
    by_cases hut : u = t
    · subst hut
      rw [Function.update_self] at hu
      cases hu
      exact Nat.lt_succ_self clock
    · rw [Function.update_of_ne hut] at hu
      exact Nat.lt_succ_of_lt (h.past u n hu)

/-- What is taken out leaves the order of the others. -/
theorem Listed.erase (h : Listed live since clock) (t : κ) :
    Listed (live.erase t) (Function.update since t none) (clock + 1) := by
  have hmem : ∀ u, u ∈ live.erase t ↔ u ≠ t ∧ u ∈ live := fun u => h.once.mem_erase_iff
  constructor
  · exact h.once.erase t
  · intro u
    rw [hmem]
    by_cases hu : u = t
    · simp [hu]
    · simp [hu, h.mem_iff u]
  · refine (h.inOrder.sublist List.erase_sublist).imp_of_mem ?_
    intro a b ha hb hab
    rw [Function.update_of_ne ((hmem a).mp ha).1, Function.update_of_ne ((hmem b).mp hb).1]
    exact hab
  · intro u n hu
    by_cases hut : u = t
    · subst hut
      rw [Function.update_self] at hu
      cases hu
    · rw [Function.update_of_ne hut] at hu
      exact Nat.lt_succ_of_lt (h.past u n hu)

end InsertionOrder

import Mathlib.Data.List.Basic
import Mathlib.Logic.Function.Basic

/-!
# Resources with one owner each

Resources are handed out one after the other and never taken back; resource `b`
is the `b`-th one. A `Holding` says which resource each party holds on to, and
with which party each resource has been registered.

Three things can happen: nothing, a party lets go of what it holds, or a party
gets a new resource. `owned_move_iff` says exactly when every resource still has
one holder, the registered party.
-/

namespace Ownership

variable {ι : Type*}

/-- Who holds what. -/
structure Holding (ι : Type*) where
  /-- The resource a party holds. -/
  ref : ι → Option Nat
  /-- The party each resource is registered with, in the order in which they were made. -/
  registered : List (Option ι)

/-- What can happen to a holding. -/
inductive Move (ι : Type*) where
  | keep
  | drop (i : ι)
  /-- A new resource for `i`, registered with `u`. -/
  | make (i : ι) (u : Option ι)

namespace Holding

/-- Every resource is held by exactly one party, the one it is registered with. -/
def Owned (h : Holding ι) : Prop :=
  ∀ b u, h.registered[b]? = some u →
    ∃ i, u = some i ∧ h.ref i = some b ∧ ∀ j, h.ref j = some b → j = i

/-- Nobody holds a resource that has not been made yet. -/
def Made (h : Holding ι) : Prop := ∀ i b, h.ref i = some b → b < h.registered.length

/-- Only a party that holds nothing lets go or gets a resource, which is registered with it. -/
def Allows (h : Holding ι) : Move ι → Prop
  | .keep => True
  | .drop i => h.ref i = none
  | .make i u => h.ref i = none ∧ u = some i

/-- The holding after a move. -/
def move [DecidableEq ι] (h : Holding ι) : Move ι → Holding ι
  | .keep => h
  | .drop i => { h with ref := Function.update h.ref i none }
  | .make i u =>
      { ref := Function.update h.ref i (some h.registered.length)
        registered := h.registered ++ [u] }

variable {h : Holding ι} {i : ι} {b : Nat}

/-- A holder of a resource is the party it is registered with. -/
theorem Owned.registered_of_ref (ho : h.Owned) (hm : h.Made) (hi : h.ref i = some b) :
    h.registered[b]? = some (some i) := by
  obtain ⟨u, hu⟩ : ∃ u, h.registered[b]? = some u := ⟨_, List.getElem?_eq_getElem (hm i b hi)⟩
  obtain ⟨j, rfl, _, hone⟩ := ho b u hu
  rw [hu, hone i hi]

theorem Owned.ref_of_registered (ho : h.Owned) (hi : h.registered[b]? = some (some i)) :
    h.ref i = some b := by
  obtain ⟨j, hj, hb, _⟩ := ho b _ hi
  rwa [Option.some.inj hj]

variable [DecidableEq ι]

theorem Made.move (hm : h.Made) (m : Move ι) : (h.move m).Made := by
  intro j b hj
  cases m with
  | keep => exact hm j b hj
  | drop i =>
      have hj : Function.update h.ref i none j = some b := hj
      by_cases hji : j = i
      · subst hji; simp at hj
      · rw [Function.update_of_ne hji] at hj
        exact hm j b hj
  | make i u =>
      have hj : Function.update h.ref i (some h.registered.length) j = some b := hj
      show b < (h.registered ++ [u]).length
      rw [List.length_append, List.length_singleton]
      by_cases hji : j = i
      · subst hji
        rw [Function.update_self] at hj
        have := Option.some.inj hj
        omega
      · rw [Function.update_of_ne hji] at hj
        have := hm j b hj
        omega

/-- Who lets go of a resource leaves it without a holder. -/
theorem Owned.allows_drop (ho : h.Owned) (hm : h.Made) (h' : (h.move (.drop i)).Owned) :
    h.ref i = none := by
  by_contra hne
  obtain ⟨b, hb⟩ := Option.ne_none_iff_exists'.mp hne
  -- `b` is still registered with `i`, which holds nothing any more
  have hnone : Function.update h.ref i none i = some b :=
    h'.ref_of_registered (ho.registered_of_ref hm hb)
  simp at hnone

/-- Who gets a resource must be registered with it, and leaves the one it had without a holder. -/
theorem Owned.allows_make {u : Option ι} (ho : h.Owned) (hm : h.Made)
    (h' : (h.move (.make i u)).Owned) : h.ref i = none ∧ u = some i := by
  have hlast : (h.registered ++ [u])[h.registered.length]? = some u := by simp
  obtain ⟨j, hu, _, hone⟩ := h' _ u hlast
  refine ⟨?_, by rw [hu, hone i (Function.update_self ..)]⟩
  -- if `i` had a resource before, that one is still registered with it
  by_contra hne
  obtain ⟨b, hb⟩ := Option.ne_none_iff_exists'.mp hne
  have hlt := hm i b hb
  have hreg : (h.registered ++ [u])[b]? = some (some i) := by
    rw [List.getElem?_append_left hlt]
    exact ho.registered_of_ref hm hb
  have hnow : Function.update h.ref i (some h.registered.length) i = some b :=
    h'.ref_of_registered hreg
  rw [Function.update_self] at hnow
  have := Option.some.inj hnow
  omega

theorem Owned.make (ho : h.Owned) (hm : h.Made) (hi : h.ref i = none) :
    (h.move (.make i (some i))).Owned := by
  intro b u hb
  have hb : (h.registered ++ [some i])[b]? = some u := hb
  by_cases hlen : b = h.registered.length
  · -- the new resource
    subst hlen
    rw [List.getElem?_append_right (Nat.le_refl _), Nat.sub_self] at hb
    refine ⟨i, (Option.some.inj hb).symm, Function.update_self .., fun j hj => ?_⟩
    have hj : Function.update h.ref i (some h.registered.length) j = _ := hj
    by_contra hji
    rw [Function.update_of_ne hji] at hj
    exact absurd (hm j _ hj) (Nat.lt_irrefl _)
  · -- an older one, whose holder is not `i`
    have hlt : b < h.registered.length := by
      have := (List.getElem?_eq_some_iff.mp hb).1
      rw [List.length_append, List.length_singleton] at this
      omega
    rw [List.getElem?_append_left hlt] at hb
    obtain ⟨k, hu, hk, hone⟩ := ho b u hb
    have hki : k ≠ i := by rintro rfl; rw [hi] at hk; simp at hk
    refine ⟨k, hu, (Function.update_of_ne hki ..).trans hk, fun j hj => ?_⟩
    have hj : Function.update h.ref i (some h.registered.length) j = _ := hj
    by_cases hji : j = i
    · subst hji
      rw [Function.update_self] at hj
      exact absurd (Option.some.inj hj).symm hlen
    · rw [Function.update_of_ne hji] at hj
      exact hone j hj

/-- **A move keeps the ownership exactly when it is allowed.** -/
theorem owned_move_iff (ho : h.Owned) (hm : h.Made) (m : Move ι) :
    (h.move m).Owned ↔ h.Allows m := by
  cases m with
  | keep => exact ⟨fun _ => trivial, fun _ => ho⟩
  | drop i =>
      refine ⟨ho.allows_drop hm, fun hi => ?_⟩
      have hi : h.ref i = none := hi
      show Owned { h with ref := Function.update h.ref i none }
      rw [← hi, Function.update_eq_self]
      exact ho
  | make i u =>
      refine ⟨ho.allows_make hm, ?_⟩
      rintro ⟨hi, rfl⟩
      exact ho.make hm hi

end Holding

end Ownership

import Mathlib.Algebra.BigOperators.Group.Finset.Piecewise
import Mathlib.Algebra.GroupWithZero.Nat
import Mathlib.Data.List.Perm.Basic

/-!
# Logs whose entries name their party

Several parties write into one log, each entry tagged with the party it belongs
to. `part i` is what party `i` sees of it. Two logs in which every party sees the
same hold the same entries, whatever the interleaving.
-/

namespace Tagged

variable {ι β γ : Type*} [DecidableEq ι]

/-- The entries of party `i`, in order. -/
def part (i : ι) (l : List (ι × β)) : List β :=
  l.filterMap fun e => if e.1 = i then some e.2 else none

@[simp] theorem part_nil (i : ι) : part i ([] : List (ι × β)) = [] := rfl

@[simp] theorem part_append (i : ι) (l m : List (ι × β)) :
    part i (l ++ m) = part i l ++ part i m := List.filterMap_append

@[simp] theorem part_singleton_self (i : ι) (b : β) : part i [(i, b)] = [b] := by simp [part]

theorem part_singleton_of_ne {i j : ι} (h : j ≠ i) (b : β) : part i [(j, b)] = [] := by
  simp [part, h]

@[simp] theorem part_cons_self (i : ι) (b : β) (l : List (ι × β)) :
    part i ((i, b) :: l) = b :: part i l := by simp [part]

theorem part_cons_of_ne {i j : ι} (h : j ≠ i) (b : β) (l : List (ι × β)) :
    part i ((j, b) :: l) = part i l := by simp [part, h]

@[simp] theorem part_map_self (i : ι) (l : List β) : part i (l.map (i, ·)) = l := by
  simp [part, List.filterMap_map]

theorem part_map_of_ne {i j : ι} (h : j ≠ i) (l : List β) : part i (l.map (j, ·)) = [] := by
  simp [part, List.filterMap_map, h]

theorem part_map (i : ι) (f : β → γ) (l : List (ι × β)) :
    part i (l.map fun e => (e.1, f e.2)) = (part i l).map f := by
  unfold part
  rw [List.filterMap_map, List.map_filterMap]
  refine List.filterMap_congr fun e _ => ?_
  by_cases h : e.1 = i <;> simp [h]

theorem count_part [DecidableEq β] (i : ι) (b : β) (l : List (ι × β)) :
    (part i l).count b = l.count (i, b) := by
  induction l with
  | nil => rfl
  | cons e l ih =>
      obtain ⟨j, c⟩ := e
      by_cases h : j = i
      · subst h
        rw [part_cons_self, List.count_cons, List.count_cons, ih]
        simp
      · rw [part_cons_of_ne h, ih]
        simp [h]

/-- Logs that look the same to every party are the same up to the order of their entries. -/
theorem perm_of_part_eq {l m : List (ι × β)} (h : ∀ i, part i l = part i m) : l.Perm m := by
  classical
  -- an entry occurs as often as its party sees it
  rw [List.perm_iff_count]
  rintro ⟨i, b⟩
  rw [← count_part, ← count_part, h i]

/-- A sum over all entries is the sum, over the parties, of what each of them sees. -/
theorem sum_part (f : β → Nat) {l : List (ι × β)} {S : Finset ι} (hS : ∀ e ∈ l, e.1 ∈ S) :
    (S.sum fun i => ((part i l).map f).sum) = (l.map fun e => f e.2).sum := by
  induction l with
  | nil => simp
  | cons e l ih =>
      obtain ⟨j, b⟩ := e
      have hj : j ∈ S := hS (j, b) (List.mem_cons_self ..)
      have hcons : ∀ i, ((part i ((j, b) :: l)).map f).sum =
          (if j = i then f b else 0) + ((part i l).map f).sum := by
        intro i
        by_cases hji : j = i
        · subst hji; simp
        · simp [part_cons_of_ne hji, hji]
      simp only [hcons, Finset.sum_add_distrib, Finset.sum_ite_eq, hj, if_true, List.map_cons,
        List.sum_cons]
      rw [ih fun e he => hS e (List.mem_cons_of_mem _ he)]

/-- Two logs that weigh the same to every party weigh the same. -/
theorem sum_eq_of_part {f : β → Nat} {g : γ → Nat} {l : List (ι × β)} {m : List (ι × γ)}
    (h : ∀ i, ((part i l).map f).sum = ((part i m).map g).sum) :
    (l.map fun e => f e.2).sum = (m.map fun e => g e.2).sum := by
  classical
  -- all parties with an entry in one of the two
  let S : Finset ι := (l.map Prod.fst).toFinset ∪ (m.map Prod.fst).toFinset
  have hl : ∀ e ∈ l, e.1 ∈ S := fun e he => by
    simp only [S, Finset.mem_union, List.mem_toFinset]
    exact Or.inl (List.mem_map_of_mem he)
  have hm : ∀ e ∈ m, e.1 ∈ S := fun e he => by
    simp only [S, Finset.mem_union, List.mem_toFinset]
    exact Or.inr (List.mem_map_of_mem he)
  rw [← sum_part f hl, ← sum_part g hm]
  exact Finset.sum_congr rfl fun i _ => h i

/-! ## Which parties stand where -/

/-- The list names the parties whose position meets `P`, each once. -/
structure Lists {π : Type*} (P : π → Prop) (pc : ι → π) (l : List ι) : Prop where
  mem : ∀ i, i ∈ l ↔ P (pc i)
  nodup : l.Nodup

variable {π : Type*} {P : π → Prop} {pc : ι → π} {l : List ι} {i : ι} {p : π}

/-- A party that moves within or without does not change the list. -/
theorem Lists.stay (h : Lists P pc l) (hp : P p ↔ P (pc i)) :
    Lists P (Function.update pc i p) l where
  mem := (Function.forall_update_iff pc fun j q => j ∈ l ↔ P q).mpr
    ⟨(h.mem i).trans hp.symm, fun j _ => h.mem j⟩
  nodup := h.nodup

theorem Lists.join (h : Lists P pc l) (hold : ¬ P (pc i)) (hp : P p) :
    Lists P (Function.update pc i p) (l ++ [i]) where
  mem := by
    refine (Function.forall_update_iff pc fun j q => j ∈ l ++ [i] ↔ P q).mpr ⟨by simp [hp], ?_⟩
    intro j hji
    rw [List.mem_append, h.mem, List.mem_singleton]
    exact or_iff_left hji
  nodup := by
    have hout : i ∉ l := fun hi => hold ((h.mem i).mp hi)
    rw [List.nodup_append_comm, List.singleton_append, List.nodup_cons]
    exact ⟨hout, h.nodup⟩

theorem Lists.leave (h : Lists P pc l) (hp : ¬ P p) :
    Lists P (Function.update pc i p) (l.erase i) where
  mem := by
    refine (Function.forall_update_iff pc fun j q => j ∈ l.erase i ↔ P q).mpr ⟨?_, ?_⟩
    · exact ⟨fun hi => absurd hi h.nodup.not_mem_erase, fun hi => absurd hi hp⟩
    · intro j hji
      rw [List.mem_erase_of_ne hji]
      exact h.mem j
  nodup := h.nodup.erase i

end Tagged

import Mathlib.Data.List.Basic

/-!
# Buffers of a fixed size

Reads and writes at an index that may lie outside of the buffer, where they are
undefined. A write that is defined does not change the size.

`storeAll_append` is the spec of writing one element after another.
-/

namespace Buffers

variable {α : Type*}

/-- The element at an index, `none` outside. -/
def load (buf : List α) (i : Int) : Option α := if 0 ≤ i then buf[i.toNat]? else none

/-- A write at an index, `none` outside. -/
def store (buf : List α) (i : Int) (a : α) : Option (List α) :=
  if 0 ≤ i ∧ i < buf.length then some (buf.set i.toNat a) else none

/-- Writes one after another. -/
def storeAll (buf : List α) (i : Int) : List α → Option (List α)
  | [] => some buf
  | a :: as => (store buf i a).bind fun buf' => storeAll buf' (i + 1) as

variable {buf buf' pre old post as : List α} {a b : α} {i : Int}

@[simp] theorem load_append : load (pre ++ a :: post) pre.length = some a := by
  unfold load
  rw [if_pos (by omega)]
  simp

theorem load_neg (h : i < 0) : load buf i = none := if_neg (by omega)

theorem load_natCast (buf : List α) (p : Nat) : load buf p = buf[p]? := by
  unfold load
  rw [if_pos (Int.natCast_nonneg p), Int.toNat_natCast]

/-- A read inside of the buffer, whatever it would default to. -/
theorem load_getD {p : Nat} (h : p < buf.length) (d : α) : load buf p = some (buf.getD p d) := by
  rw [load_natCast]
  simp [h]

theorem load_eq_none_iff : load buf i = none ↔ i < 0 ∨ buf.length ≤ i := by
  unfold load
  split
  · rw [List.getElem?_eq_none_iff]
    omega
  · simp only [true_iff]
    omega

@[simp] theorem store_append :
    store (pre ++ b :: post) pre.length a = some (pre ++ a :: post) := by
  unfold store
  rw [if_pos (by simp only [List.length_append, List.length_cons]; omega)]
  simp

/-- A write inside of the buffer. -/
theorem store_set {p : Nat} (h : p < buf.length) (a : α) : store buf p a = some (buf.set p a) := by
  unfold store
  rw [if_pos (by omega), Int.toNat_natCast]

theorem store_eq_none (h : i < 0 ∨ buf.length ≤ i) : store buf i a = none := if_neg (by omega)

theorem length_store (h : store buf i a = some buf') : buf'.length = buf.length := by
  unfold store at h
  split at h
  · cases h
    exact List.length_set
  · cases h

theorem length_storeAll (h : storeAll buf i as = some buf') : buf'.length = buf.length := by
  induction as generalizing buf i with
  | nil =>
      cases h
      rfl
  | cons a as ih =>
      obtain ⟨buf'', hstore, hall⟩ := Option.bind_eq_some_iff.mp h
      rw [ih hall, length_store hstore]

/-- What was there is replaced, and the rest stays. -/
theorem storeAll_append (h : old.length = as.length) :
    storeAll (pre ++ old ++ post) pre.length as = some (pre ++ as ++ post) := by
  induction as generalizing pre old with
  | nil =>
      obtain rfl := List.length_eq_zero_iff.mp h
      rfl
  | cons a as ih =>
      obtain ⟨b, old, rfl⟩ := List.exists_cons_of_length_eq_add_one h
      have hlen : ((pre ++ [a]).length : Int) = pre.length + 1 := by simp
      have hnext : storeAll ((pre ++ [a]) ++ old ++ post) (pre ++ [a]).length as =
          some ((pre ++ [a]) ++ as ++ post) := ih (by simpa using h)
      rw [hlen] at hnext
      rw [storeAll, List.append_assoc, List.cons_append, store_append, Option.bind_some]
      simpa using hnext

/-- Writes that fit replace what was at their place. -/
theorem storeAll_eq {p : Nat} (h : p + as.length ≤ buf.length) :
    storeAll buf p as = some (buf.take p ++ as ++ buf.drop (p + as.length)) := by
  have hsplit : buf = buf.take p ++ (buf.drop p).take as.length ++ buf.drop (p + as.length) := by
    rw [← List.drop_drop, List.append_assoc, List.take_append_drop, List.take_append_drop]
  have hpre : (buf.take p).length = p := List.length_take_of_le (by omega)
  have hold : ((buf.drop p).take as.length).length = as.length := by
    rw [List.length_take, List.length_drop]
    omega
  have hall : storeAll (buf.take p ++ (buf.drop p).take as.length ++ buf.drop (p + as.length))
      (buf.take p).length as = some (buf.take p ++ as ++ buf.drop (p + as.length)) :=
    storeAll_append hold
  rw [← hsplit, hpre] at hall
  exact hall

/-- There is no room for more than the buffer holds. -/
theorem storeAll_eq_none {p : Nat} (h : buf.length < p + as.length) (hp : p ≤ buf.length) :
    storeAll buf p as = none := by
  induction as generalizing buf p with
  | nil =>
      rw [List.length_nil] at h
      omega
  | cons a as ih =>
      rw [List.length_cons] at h
      by_cases hlast : p = buf.length
      · rw [storeAll, store_eq_none (Or.inr (by omega)), Option.bind_none]
      · have hnext : ((p : Int) + 1) = (p + 1 : Nat) := rfl
        rw [storeAll, store_set (by omega), Option.bind_some, hnext]
        exact ih (by rw [List.length_set]; omega) (by rw [List.length_set]; omega)

/-! ## Loops of accesses -/

section Loops

variable {σ ι β : Type*} {I : σ → Prop} {is : List ι}

/-- A loop whose steps are defined where an invariant holds, and keep it. -/
theorem foldlM_defined {f : σ → ι → Option σ}
    (h : ∀ i ∈ is, ∀ s, I s → ∃ s', f s i = some s' ∧ I s') {s : σ} (hs : I s) :
    ∃ s', is.foldlM f s = some s' ∧ I s' := by
  induction is generalizing s with
  | nil => exact ⟨s, rfl, hs⟩
  | cons i is ih =>
      obtain ⟨s', hstep, hs'⟩ := h i List.mem_cons_self s hs
      obtain ⟨s'', hrest, hs''⟩ := ih (fun j hj => h j (List.mem_cons_of_mem i hj)) hs'
      refine ⟨s'', ?_, hs''⟩
      rw [List.foldlM_cons, hstep]
      exact hrest

/-- A loop that makes a list, one element for each round. -/
theorem mapM_defined {f : ι → Option β} (h : ∀ i ∈ is, ∃ b, f i = some b) :
    ∃ bs, is.mapM f = some bs ∧ bs.length = is.length := by
  induction is with
  | nil => exact ⟨[], rfl, rfl⟩
  | cons i is ih =>
      obtain ⟨b, hb⟩ := h i List.mem_cons_self
      obtain ⟨bs, hbs, hlen⟩ := ih fun j hj => h j (List.mem_cons_of_mem i hj)
      refine ⟨b :: bs, ?_, congrArg (· + 1) hlen⟩
      rw [List.mapM_cons, hb, hbs]
      rfl

/-- A counted loop, with an invariant of the rounds that are done. -/
theorem foldlM_range_defined {I : Nat → σ → Prop} {f : σ → Nat → Option σ} {n : Nat}
    (h : ∀ i < n, ∀ s, I i s → ∃ s', f s i = some s' ∧ I (i + 1) s') {s : σ} (hs : I 0 s) :
    ∃ s', (List.range n).foldlM f s = some s' ∧ I n s' := by
  induction n with
  | zero => exact ⟨s, rfl, hs⟩
  | succ n ih =>
      obtain ⟨s', hloop, hs'⟩ := ih fun i hi => h i (Nat.lt_succ_of_lt hi)
      obtain ⟨s'', hstep, hs''⟩ := h n (Nat.lt_succ_self n) s' hs'
      refine ⟨s'', ?_, hs''⟩
      rw [List.range_succ, List.foldlM_append, hloop]
      show [n].foldlM f s' = _
      rw [List.foldlM_cons, hstep]
      rfl

/-- A counted loop that reads one element after another. -/
theorem mapM_range_eq {f : Nat → Option β} {bs : List β} {n : Nat} (hn : n ≤ bs.length)
    (h : ∀ i < n, f i = bs[i]?) : (List.range n).mapM f = some (bs.take n) := by
  induction n with
  | zero => rfl
  | succ n ih =>
      have hget : bs[n]? = some bs[n] := List.getElem?_eq_getElem hn
      have hlast : f n = some bs[n] := (h n (Nat.lt_succ_self n)).trans hget
      rw [List.range_succ, List.mapM_append,
        ih (Nat.le_of_succ_le hn) fun i hi => h i (Nat.lt_succ_of_lt hi), List.mapM_cons, hlast,
        List.take_add_one, hget]
      rfl

end Loops

end Buffers

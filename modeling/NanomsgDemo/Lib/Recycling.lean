import Mathlib.Data.List.AList
import Mathlib.Data.List.Basic
import Mathlib.Data.List.Nodup
import Mathlib.Logic.Function.Basic

/-!
# Recycled objects

Objects that move between two lists: those in use and those kept for later. What
matters is that the lists never share an object (`Separate`), for then an object
that is taken over from the spare ones is nobody else's.

The objects in use are also read as the rows of a table, each under a key it
carries itself (`Table`). `map_update_eq_assign` is the bridge: writing over one
object is assigning one row, as long as no two objects carry the same key.
-/

namespace Recycling

/-- What `new` may return: an address that no object of the list has. -/
structure Allocator where
  addr : List Nat → Nat
  fresh : ∀ l, addr l ∉ l

/-- The allocator that takes the first address above all others. -/
def Allocator.above : Allocator where
  addr l := l.foldr (fun a n => max (a + 1) n) 0
  fresh l := by
    have hlt : ∀ a ∈ l, a < l.foldr (fun a n => max (a + 1) n) 0 := by
      induction l with
      | nil => simp
      | cons b l ih =>
          intro a ha
          rw [List.foldr_cons]
          rcases List.mem_cons.mp ha with hab | hal
          · omega
          · have := ih a hal
            omega
    intro h
    exact absurd (hlt _ h) (Nat.lt_irrefl _)

/-! ## Two lists that share nothing -/

section Separate

variable {κ : Type*} {live spare : List κ} {a : κ}

/-- Neither list repeats an object, and no object is in both. -/
def Separate (live spare : List κ) : Prop := (live ++ spare).Nodup

theorem separate_nil : Separate ([] : List κ) [] := List.nodup_nil

theorem Separate.left (h : Separate live spare) : live.Nodup := (List.nodup_append.mp h).1

theorem Separate.right (h : Separate live spare) : spare.Nodup := (List.nodup_append.mp h).2.1

theorem Separate.notMem_right (h : Separate live spare) (ha : a ∈ live) : a ∉ spare :=
  fun hs => (List.nodup_append.mp h).2.2 a ha a hs rfl

theorem Separate.symm (h : Separate live spare) : Separate spare live :=
  List.nodup_append_comm.mp h

theorem Separate.notMem_left (h : Separate live spare) (ha : a ∈ spare) : a ∉ live :=
  h.symm.notMem_right ha

/-- An object that is in neither list is put into use. -/
theorem Separate.push (h : Separate live spare) (hl : a ∉ live) (hs : a ∉ spare) :
    Separate (live ++ [a]) spare := by
  unfold Separate
  rw [List.append_assoc, List.singleton_append, List.nodup_middle, List.nodup_cons]
  refine ⟨?_, h⟩
  intro ha
  rcases List.mem_append.mp ha with ha | ha
  · exact hl ha
  · exact hs ha

/-- The first spare object is put into use. -/
theorem Separate.reuse (h : Separate live (a :: spare)) : Separate (live ++ [a]) spare := by
  unfold Separate
  rw [List.append_assoc, List.singleton_append]
  exact h

theorem Separate.clear (h : Separate live spare) : Separate live [] := by
  unfold Separate
  rw [List.append_nil]
  exact h.left

/-- An object is taken out of use and kept for later. -/
theorem Separate.retire [DecidableEq κ] (h : Separate live spare) (ha : a ∈ live) :
    Separate (live.erase a) (spare ++ [a]) := by
  have hrest : Separate (live.erase a) spare :=
    List.Nodup.sublist (List.Sublist.append_right List.erase_sublist spare) h
  exact (hrest.symm.push (h.notMem_right ha) h.left.not_mem_erase).symm

end Separate

/-! ## Searching the objects in use -/

section Search

variable {κ ε : Type*} [DecidableEq κ] {live : List κ} {heap : κ → ε} {a : κ} {e : ε}

/-- Taking out the object that is found is taking out the first one with the property. -/
theorem erase_eq_eraseP_of_find? {q : κ → Bool} (h : live.find? q = some a) :
    live.erase a = live.eraseP q := by
  induction live with
  | nil => rfl
  | cons b live ih =>
      rw [List.find?_cons] at h
      rw [List.eraseP_cons]
      cases hq : q b with
      | true =>
          rw [hq] at h
          cases h
          rw [cond_true, List.erase_cons_head]
      | false =>
          rw [hq] at h
          have hba : b ≠ a := by
            intro hba
            subst hba
            exact absurd (List.find?_some h) (by simp [hq])
          rw [cond_false, List.erase_cons_tail (by simpa using hba), ih h]

theorem find?_erase_of_neg {q : κ → Bool} (ha : q a = false) :
    (live.erase a).find? q = live.find? q := by
  induction live with
  | nil => rfl
  | cons b live ih =>
      by_cases hba : b = a
      · subst hba
        rw [List.erase_cons_head, List.find?_cons_of_neg (by simp [ha])]
      · rw [List.erase_cons_tail (by simpa using hba), List.find?_cons, List.find?_cons, ih]

/-- A search that cannot tell the old object from the new one finds the same. -/
theorem find?_update {q : ε → Bool} (h : a ∈ live → q e = q (heap a)) :
    live.find? (fun b => q (Function.update heap a e b)) = live.find? fun b => q (heap b) := by
  induction live with
  | nil => rfl
  | cons b live ih =>
      have ih := ih fun ha => h (List.mem_cons_of_mem b ha)
      rw [List.find?_cons, List.find?_cons, ih]
      by_cases hba : b = a
      · subst hba
        rw [Function.update_self, h List.mem_cons_self]
      · rw [Function.update_of_ne hba]

theorem map_update_of_notMem (ha : a ∉ live) :
    live.map (Function.update heap a e) = live.map heap := by
  refine List.map_congr_left fun b hb => Function.update_of_ne ?_ ..
  intro hba
  exact ha (hba ▸ hb)

end Search

/-! ## Rows under keys -/

section Keys

variable {ε ι : Type*} [DecidableEq ι] (key : ε → ι)

/-- The first row with the key. -/
def lookup (k : ι) (rows : List ε) : Option ε := rows.find? fun e => key e = k

/-- The row takes the place of the one with its key, or the last place. -/
def assign (e : ε) (rows : List ε) : List ε :=
  if ∃ d ∈ rows, key d = key e then rows.map fun d => if key d = key e then e else d
  else rows ++ [e]

variable {key} {e : ε} {k j : ι} {rows : List ε}

theorem lookup_eq_none : lookup key k rows = none ↔ ∀ d ∈ rows, key d ≠ k := by
  simp [lookup]

theorem lookup_append : lookup key k (rows ++ [e]) =
    (lookup key k rows).or (if key e = k then some e else none) := by
  unfold lookup
  rw [List.find?_append]
  by_cases he : key e = k <;> simp [he]

/-- A row that is found under its own key is the only one there. -/
theorem lookup_of_mem (hd : (rows.map key).Nodup) (he : e ∈ rows) :
    lookup key (key e) rows = some e := by
  induction rows with
  | nil => simp at he
  | cons d rows ih =>
      rw [List.map_cons, List.nodup_cons] at hd
      unfold lookup
      rw [List.find?_cons]
      rcases List.mem_cons.mp he with hed | her
      · subst hed
        simp
      · -- `d` comes before, so it has another key
        have hne : key d ≠ key e := fun h => hd.1 (List.mem_map.mpr ⟨e, her, h.symm⟩)
        simp only [hne, decide_false]
        exact ih hd.2 her

theorem lookup_assign_self : lookup key (key e) (assign key e rows) = some e := by
  unfold assign
  split
  · rename_i h
    induction rows with
    | nil => simp at h
    | cons d rows ih =>
        unfold lookup
        rw [List.map_cons, List.find?_cons]
        by_cases hd : key d = key e
        · simp [hd]
        · simp only [hd, if_false, decide_false]
          refine ih ?_
          rcases h with ⟨c, hc, hce⟩
          rcases List.mem_cons.mp hc with hcd | hcr
          · subst hcd
            exact absurd hce hd
          · exact ⟨c, hcr, hce⟩
  · rename_i h
    have hnone : lookup key (key e) rows = none :=
      lookup_eq_none.mpr fun d hd hde => h ⟨d, hd, hde⟩
    rw [lookup_append, hnone]
    simp

theorem lookup_assign_of_ne (hj : j ≠ key e) :
    lookup key j (assign key e rows) = lookup key j rows := by
  unfold assign
  split
  · clear * - hj
    unfold lookup
    induction rows with
    | nil => rfl
    | cons d rows ih =>
        rw [List.map_cons, List.find?_cons, List.find?_cons, ih]
        by_cases hd : key d = key e
        · simp [hd, hj.symm]
        · simp [hd]
  · rw [lookup_append]
    simp [hj.symm]

theorem distinct_assign (hd : (rows.map key).Nodup) : ((assign key e rows).map key).Nodup := by
  unfold assign
  split
  · -- the row that is replaced had the same key
    have hkeys : (rows.map fun d => if key d = key e then e else d).map key = rows.map key := by
      rw [List.map_map]
      refine List.map_congr_left fun d _ => ?_
      show key (if key d = key e then e else d) = key d
      split <;> simp_all
    rwa [hkeys]
  · rename_i h
    have hnew : key e ∉ rows.map key := by
      intro hm
      rcases List.mem_map.mp hm with ⟨d, hdr, hde⟩
      exact h ⟨d, hdr, hde⟩
    rw [List.map_append, List.map_singleton, ← List.concat_eq_append]
    exact List.Nodup.concat hnew hd

omit [DecidableEq ι] in
theorem distinct_eraseP {p : ε → Bool} (hd : (rows.map key).Nodup) :
    ((rows.eraseP p).map key).Nodup :=
  List.Nodup.sublist (List.eraseP_sublist.map key) hd

/-- Without the row under a key, nothing is found there. -/
theorem lookup_eraseP_self (hd : (rows.map key).Nodup) :
    lookup key k (rows.eraseP fun e => key e = k) = none := by
  induction rows with
  | nil => rfl
  | cons d rows ih =>
      rw [List.map_cons, List.nodup_cons] at hd
      rw [List.eraseP_cons]
      by_cases hk : key d = k
      · -- `d` was the only one
        simp only [hk, decide_true, cond_true]
        refine lookup_eq_none.mpr fun c hc hck => ?_
        exact hd.1 (List.mem_map.mpr ⟨c, hc, hck.trans hk.symm⟩)
      · simp only [hk, decide_false, cond_false]
        unfold lookup
        rw [List.find?_cons]
        simp only [hk, decide_false]
        exact ih hd.2

/-- The first row with `p` goes; whoever is found under another key stays. -/
theorem lookup_eraseP_of_ne {p : ε → Bool} (hj : ∀ d ∈ rows, p d → key d ≠ j) :
    lookup key j (rows.eraseP p) = lookup key j rows := by
  unfold lookup
  induction rows with
  | nil => rfl
  | cons d rows ih =>
      have ih := ih fun c hc => hj c (List.mem_cons_of_mem d hc)
      have hdj := hj d List.mem_cons_self
      rw [List.eraseP_cons, List.find?_cons]
      cases hp : p d with
      | true =>
          have hne : key d ≠ j := hdj hp
          simp [hne]
      | false => rw [cond_false, List.find?_cons, ih]

/-! ## Objects as rows -/

variable {κ : Type*} [DecidableEq κ] {heap : κ → ε} {live : List κ} {a : κ}

/-- **Writing over the object with a key is assigning its row.** -/
theorem map_update_eq_assign (hd : ((live.map heap).map key).Nodup) (ha : a ∈ live)
    (hk : key (heap a) = key e) :
    live.map (Function.update heap a e) = assign key e (live.map heap) := by
  unfold assign
  rw [if_pos ⟨heap a, List.mem_map_of_mem ha, hk⟩, List.map_map]
  refine List.map_congr_left fun b hb => ?_
  show Function.update heap a e b = if key (heap b) = key e then e else heap b
  by_cases hba : b = a
  · rw [hba, Function.update_self, if_pos hk]
  · -- another object in use has another key
    have hne : key (heap b) ≠ key e := by
      intro hbe
      rw [List.map_map] at hd
      exact hba (List.inj_on_of_nodup_map hd hb ha (hbe.trans hk.symm))
    rw [Function.update_of_ne hba, if_neg hne]

end Keys

/-! ## Bindings -/

section Bindings

variable {κ ε : Type*} [DecidableEq κ]

theorem lookup_insert_eq (l : AList fun _ : κ => ε) (x y : κ) (e : ε) :
    (l.insert x e).lookup y = if y = x then some e else l.lookup y := by
  by_cases h : y = x
  · rw [if_pos h, h]
    exact AList.lookup_insert l
  · rw [if_neg h]
    exact AList.lookup_insert_ne h

theorem lookup_erase_eq (l : AList fun _ : κ => ε) (x y : κ) :
    (l.erase x).lookup y = if y = x then none else l.lookup y := by
  by_cases h : y = x
  · rw [if_pos h, h]
    exact AList.lookup_erase x l
  · rw [if_neg h]
    exact AList.lookup_erase_ne h

variable {l : AList fun _ : κ => ε} {x y : κ} {d e : ε}

theorem lookup_insert_eq_some : (l.insert x e).lookup y = some d ↔
    y = x ∧ e = d ∨ y ≠ x ∧ l.lookup y = some d := by
  rw [lookup_insert_eq]
  by_cases h : y = x
  · simp [h]
  · simp [h]

theorem lookup_erase_eq_some : (l.erase x).lookup y = some d ↔ y ≠ x ∧ l.lookup y = some d := by
  rw [lookup_erase_eq]
  by_cases h : y = x
  · simp [h]
  · simp [h]

/-- A key that is bound is not a free one. -/
theorem ne_of_lookup (hx : l.lookup x = none) (hy : l.lookup y = some d) : y ≠ x := by
  rintro rfl
  rw [hx] at hy
  exact absurd hy (by simp)

end Bindings

/-! ## Tables -/

/-- Rows in the order in which they were added, no two with the same key. -/
@[ext]
structure Table {ε ι : Type*} (key : ε → ι) where
  rows : List ε
  distinct : (rows.map key).Nodup

namespace Table

variable {ε ι : Type*} [DecidableEq ι] {key : ε → ι}

def empty : Table key := ⟨[], List.nodup_nil⟩

/-- What the table maps a key to. -/
def get (t : Table key) (k : ι) : Option ε := lookup key k t.rows

def set (t : Table key) (e : ε) : Table key := ⟨assign key e t.rows, distinct_assign t.distinct⟩

/-- Without the first row with `p`. -/
def removeFirst (t : Table key) (p : ε → Bool) : Table key :=
  ⟨t.rows.eraseP p, distinct_eraseP t.distinct⟩

theorem get_set (t : Table key) (e : ε) :
    (t.set e).get = Function.update t.get (key e) (some e) := by
  funext j
  by_cases hj : j = key e
  · subst hj
    rw [Function.update_self]
    exact lookup_assign_self
  · rw [Function.update_of_ne hj]
    exact lookup_assign_of_ne hj

theorem get_removeFirst_key (t : Table key) (k : ι) :
    (t.removeFirst fun e => key e = k).get = Function.update t.get k none := by
  funext j
  by_cases hj : j = k
  · subst hj
    rw [Function.update_self]
    exact lookup_eraseP_self t.distinct
  · rw [Function.update_of_ne hj]
    refine lookup_eraseP_of_ne fun d _ hd => ?_
    rw [of_decide_eq_true hd]
    exact Ne.symm hj

end Table

end Recycling

import Mathlib.Data.Set.Card
import Mathlib.Data.List.Dedup

/-!
# Words counted, and how they branch

A function `f : List α → ℕ` counts words. The words it counts branch at `x` into the
letters that follow `x` in one of them. `under p f` counts the words of `f` with `p`
put in front, and `fork r g` counts the empty word `r` times and the words that begin
with `c` as `g c` does; every tree of words is made of the two.

`settled k f g` is what is left of `g`, to which `f` has changed, if the words at which
more than `k` letters follow in one of the two and not in the other are dropped.
-/

namespace Branching

variable {α : Type*}

/-- The letters that follow `x` in the words of `f`. -/
def branches (f : List α → ℕ) (x : List α) : Set α := {c | ∃ y, 0 < f (x ++ c :: y)}

/-- More than `k` letters follow. -/
def Wide (k : ℕ) (f : List α → ℕ) (x : List α) : Prop := k < (branches f x).ncard

open Classical in
noncomputable def settled (k : ℕ) (f g : List α → ℕ) (x : List α) : ℕ :=
  if Wide k f x ↔ Wide k g x then g x else 0

theorem mem_branches {f : List α → ℕ} {x : List α} {c : α} :
    c ∈ branches f x ↔ ∃ y, 0 < f (x ++ c :: y) := Iff.rfl

theorem branches_append (f : List α → ℕ) (p x : List α) :
    branches f (p ++ x) = branches (fun y => f (p ++ y)) x := by
  ext c
  simp only [mem_branches, List.append_assoc]

theorem wide_append {k : ℕ} {f : List α → ℕ} {p x : List α} :
    Wide k f (p ++ x) ↔ Wide k (fun y => f (p ++ y)) x := by
  rw [Wide, branches_append, Wide]

theorem settled_of_iff {k : ℕ} {f g : List α → ℕ} {x : List α} (h : Wide k f x ↔ Wide k g x) :
    settled k f g x = g x := if_pos h

theorem settled_of_not {k : ℕ} {f g : List α → ℕ} {x : List α} (h : ¬(Wide k f x ↔ Wide k g x)) :
    settled k f g x = 0 := if_neg h

theorem settled_append (k : ℕ) (f g : List α → ℕ) (p x : List α) :
    settled k f g (p ++ x) = settled k (fun y => f (p ++ y)) (fun y => g (p ++ y)) x := by
  by_cases h : Wide k f (p ++ x) ↔ Wide k g (p ++ x)
  · rw [settled_of_iff h, settled_of_iff (wide_append.symm.trans (h.trans wide_append))]
  · rw [settled_of_not h,
      settled_of_not fun h' => h (wide_append.trans (h'.trans wide_append.symm))]

theorem settled_le (k : ℕ) (f g : List α → ℕ) (x : List α) : settled k f g x ≤ g x := by
  by_cases h : Wide k f x ↔ Wide k g x
  · exact (settled_of_iff h).le
  · rw [settled_of_not h]
    exact Nat.zero_le _

theorem settled_of_eq_zero {k : ℕ} {f g : List α → ℕ} {x : List α} (h : g x = 0) :
    settled k f g x = 0 := by
  unfold settled
  split
  · exact h
  · rfl

theorem settled_of_branches {k : ℕ} {f g : List α → ℕ} {x : List α}
    (h : branches f x = branches g x) : settled k f g x = g x :=
  settled_of_iff (by rw [Wide, h, Wide])

theorem branches_eq_empty {f : List α → ℕ} {x : List α} (h : ∀ c y, f (x ++ c :: y) = 0) :
    branches f x = ∅ :=
  Set.eq_empty_of_forall_notMem fun c hc => by
    obtain ⟨y, hy⟩ := hc
    rw [h c y] at hy
    exact Nat.lt_irrefl 0 hy

/-! ## The parts of a tree of words -/

/-- The empty word `r` times, and a word that begins with `c` as often as `g c` has the rest. -/
def fork (r : ℕ) (g : α → List α → ℕ) : List α → ℕ
  | [] => r
  | c :: x => g c x

@[simp] theorem fork_nil (r : ℕ) (g : α → List α → ℕ) : fork r g [] = r := rfl

@[simp] theorem fork_cons (r : ℕ) (g : α → List α → ℕ) (c : α) (x : List α) :
    fork r g (c :: x) = g c x := rfl

section Parts

variable [DecidableEq α]

/-- The words of `f` with `p` in front of them. -/
def under (p : List α) (f : List α → ℕ) (x : List α) : ℕ :=
  match p.isPrefixOf? x with
  | some y => f y
  | none => 0

@[simp] theorem under_nil (f : List α → ℕ) : under [] f = f := by
  funext x
  cases x <;> rfl

theorem under_cons_cons (c d : α) (p x : List α) (f : List α → ℕ) :
    under (c :: p) f (d :: x) = if c = d then under p f x else 0 := by
  by_cases h : c = d
  · simp [under, List.isPrefixOf?, h]
  · simp [under, List.isPrefixOf?, h]

@[simp] theorem under_append_self (p x : List α) (f : List α → ℕ) : under p f (p ++ x) = f x := by
  induction p with
  | nil => simp
  | cons c p ih => simp [under_cons_cons, ih]

@[simp] theorem under_self (p : List α) (f : List α → ℕ) : under p f p = f [] := by
  simpa using under_append_self p [] f

theorem under_eq_zero {p x : List α} (f : List α → ℕ) (h : ¬p <+: x) : under p f x = 0 := by
  induction p generalizing x with
  | nil => exact absurd List.nil_prefix h
  | cons c p ih =>
      cases x with
      | nil => rfl
      | cons d x =>
          rw [under_cons_cons]
          split
          next heq => exact ih fun hp => h (List.cons_prefix_cons.mpr ⟨heq, hp⟩)
          next => rfl

theorem under_append (p q : List α) (f : List α → ℕ) :
    under (p ++ q) f = under p (under q f) := by
  funext x
  induction p generalizing x with
  | nil => simp
  | cons c p ih =>
      cases x with
      | nil => rfl
      | cons d x => simp [under_cons_cons, ih]

/-- A fork with one letter only goes on as the word behind it. -/
theorem fork_single (c : α) (f : List α → ℕ) :
    fork 0 (fun d x => if c = d then f x else 0) = under [c] f := by
  funext x
  cases x with
  | nil => rfl
  | cons d x => simp [under_cons_cons]

theorem branches_under (p x : List α) (f : List α → ℕ) :
    branches (under p f) (p ++ x) = branches f x := by
  rw [branches_append]
  simp

end Parts

/-! ## One word counted anew -/

section Update

variable [DecidableEq α]

theorem update_append (f : List α → ℕ) (p s : List α) (v : ℕ) :
    (fun y => Function.update f (p ++ s) v (p ++ y)) =
      Function.update (fun y => f (p ++ y)) s v := by
  funext y
  by_cases h : y = s
  · subst h
    simp
  · rw [Function.update_of_ne (by simpa using h), Function.update_of_ne h]

/-- Nothing changes where the word does not pass. -/
theorem branches_update_beside {f : List α → ℕ} {s x : List α} {v : ℕ}
    (h : ∀ c y, s ≠ x ++ c :: y) : branches (Function.update f s v) x = branches f x := by
  ext c
  refine exists_congr fun y => ?_
  rw [Function.update_of_ne (h c y).symm]

theorem branches_update_subset (f : List α → ℕ) {s x y : List α} {c : α} (v : ℕ)
    (hs : s = x ++ c :: y) : branches (Function.update f s v) x ⊆ insert c (branches f x) := by
  rintro d ⟨z, hz⟩
  by_cases h : x ++ d :: z = s
  · rw [hs, List.append_cancel_left_eq, List.cons.injEq] at h
    exact Or.inl h.1
  · rw [Function.update_of_ne h] at hz
    exact Or.inr ⟨z, hz⟩

theorem settled_update {k : ℕ} {f : List α → ℕ} {s : List α} {v : ℕ}
    (h : ∀ x c y, s = x ++ c :: y → (Wide k f x ↔ Wide k (Function.update f s v) x)) :
    settled k f (Function.update f s v) = Function.update f s v := by
  funext x
  by_cases hx : ∃ c y, s = x ++ c :: y
  · obtain ⟨c, y, hs⟩ := hx
    exact settled_of_iff (h x c y hs)
  · exact settled_of_branches (branches_update_beside fun c y hs => hx ⟨c, y, hs⟩).symm

/-- The words with something in front of them, where there is one word only. -/
theorem under_update (p s : List α) (v : ℕ) :
    under p (Function.update (0 : List α → ℕ) s v)
      = Function.update (0 : List α → ℕ) (p ++ s) v := by
  funext x
  by_cases hx : p <+: x
  · obtain ⟨z, rfl⟩ := hx
    rw [under_append_self]
    by_cases hz : z = s
    · rw [hz, Function.update_self, Function.update_self]
    · rw [Function.update_of_ne hz, Function.update_of_ne (by simpa using hz)]
      rfl
  · have hne : x ≠ p ++ s := fun h => hx (h ▸ List.prefix_append p s)
    rw [under_eq_zero _ hx, Function.update_of_ne hne]
    rfl

variable [Finite α]

/-- A word more where no place on its way has `k` letters already. -/
theorem settled_update_of_lt {k : ℕ} {f : List α → ℕ} {s : List α} {v : ℕ}
    (h : ∀ x c y, s = x ++ c :: y → (branches f x).ncard < k) :
    settled k f (Function.update f s v) = Function.update f s v := by
  refine settled_update fun x c y hs => ?_
  have hlt := h x c y hs
  have hle : (branches (Function.update f s v) x).ncard ≤ (branches f x).ncard + 1 :=
    (Set.ncard_le_ncard (branches_update_subset f v hs) (Set.toFinite _)).trans
      (Set.ncard_insert_le _ _)
  exact iff_of_false (Nat.not_lt.mpr hlt.le) (Nat.not_lt.mpr (hle.trans hlt))

end Update

/-! ## The words of a tree -/

section Tree

variable [DecidableEq α]

/-- The words of a tree that begins with `p`, counts `p` itself `r` times, and goes on with `g`. -/
def tree (p : List α) (r : ℕ) (g : α → List α → ℕ) : List α → ℕ :=
  under p (fork r g)

theorem tree_append (p x : List α) (r : ℕ) (g : α → List α → ℕ) :
    tree p r g (p ++ x) = fork r g x := under_append_self p x _

theorem tree_self (p : List α) (r : ℕ) (g : α → List α → ℕ) : tree p r g p = r := under_self p _

theorem branches_tree (p : List α) (r : ℕ) (g : α → List α → ℕ) :
    branches (tree p r g) p = {c | ∃ y, 0 < g c y} := by
  have h := branches_under p [] (fork r g)
  rwa [List.append_nil] at h

/-- A tree with nothing below its top counts that only. -/
theorem tree_leaf (p : List α) (r : ℕ) {g : α → List α → ℕ} (hg : ∀ c, g c = 0) :
    tree p r g = Function.update (0 : List α → ℕ) p r := by
  funext x
  by_cases hx : p <+: x
  · obtain ⟨z, rfl⟩ := hx
    rw [tree_append]
    cases z with
    | nil => simp
    | cons c z =>
        rw [fork_cons, hg, Function.update_of_ne (by simp)]
        rfl
  · have hne : x ≠ p := fun h => hx (h ▸ List.prefix_rfl)
    rw [tree, under_eq_zero _ hx, Function.update_of_ne hne]
    rfl

theorem tree_zero (p : List α) {g : α → List α → ℕ} (hg : ∀ c, g c = 0) : tree p 0 g = 0 := by
  rw [tree_leaf p 0 hg]
  exact Function.update_eq_self p (0 : List α → ℕ)

/-- A tree that counts nothing but what is below one letter. -/
theorem tree_single (p : List α) (c : α) {g : α → List α → ℕ}
    (hg : ∀ d, d ≠ c → g d = 0) : tree p 0 g = under (p ++ [c]) (g c) := by
  rw [under_append, tree]
  congr 1
  rw [← fork_single]
  congr 1
  funext d x
  by_cases hd : c = d
  · rw [if_pos hd, hd]
  · rw [if_neg hd, hg d fun h => hd h.symm]
    rfl

/-- Before its beginning is over, a tree does not branch. -/
theorem branches_under_subset {p x b : List α} {d : α} (f : List α → ℕ) (hp : p = x ++ d :: b) :
    branches (under p f) x ⊆ {d} := by
  rintro c ⟨y, hy⟩
  by_contra hc
  refine Nat.ne_of_gt hy (under_eq_zero f fun hpre => hc ?_)
  rw [hp, List.prefix_append_right_inj, List.cons_prefix_cons] at hpre
  exact hpre.1.symm

theorem branches_under_ncard {p x b : List α} {d : α} (f : List α → ℕ) (hp : p = x ++ d :: b) :
    (branches (under p f) x).ncard ≤ 1 :=
  (Set.ncard_le_ncard (branches_under_subset f hp) (Set.finite_singleton d)).trans
    (Set.ncard_singleton d).le

/-- A word below a letter of a tree: beside that letter all is as it was. -/
theorem settled_tree_below (k : ℕ) (p s : List α) (c : α) (r v : ℕ) (g : α → List α → ℕ)
    {x : List α} (hx : x ≠ p) :
    settled k (tree p r g) (Function.update (tree p r g) (p ++ c :: s) v) x
      = tree p r (Function.update g c (settled k (g c) (Function.update (g c) s v))) x := by
  by_cases hp : p <+: x
  · obtain ⟨z, rfl⟩ := hp
    cases z with
    | nil => simp at hx
    | cons d z =>
        have hf : (fun y => tree p r g ((p ++ [d]) ++ y)) = g d := by
          funext y
          rw [List.append_assoc, tree_append]
          rfl
        rw [tree_append, fork_cons, List.append_cons p d z, settled_append, hf]
        by_cases hd : d = c
        · subst hd
          have hsplit : p ++ d :: s = (p ++ [d]) ++ s := by simp
          rw [Function.update_self, hsplit, update_append, hf]
        · rw [Function.update_of_ne hd]
          have hg : (fun y => Function.update (tree p r g) (p ++ c :: s) v ((p ++ [d]) ++ y))
              = g d := by
            funext y
            rw [← congrFun hf y, Function.update_of_ne]
            intro h
            rw [List.append_assoc, List.append_cancel_left_eq] at h
            exact hd (List.cons.inj h).1
          rw [hg, settled_of_iff Iff.rfl]
  · -- what does not begin with `p` is not counted, before or after
    have hne : x ≠ p ++ c :: s := fun h => hp (h ▸ List.prefix_append p _)
    rw [tree, tree, under_eq_zero _ hp]
    refine settled_of_eq_zero ?_
    rw [Function.update_of_ne hne, under_eq_zero _ hp]

theorem update_tree_self (p : List α) (r v : ℕ) (g : α → List α → ℕ) :
    Function.update (tree p r g) p v = tree p v g := by
  funext x
  by_cases hx : p <+: x
  · obtain ⟨z, rfl⟩ := hx
    rw [tree_append]
    cases z with
    | nil => simp
    | cons c z => rw [Function.update_of_ne (by simp), tree_append, fork_cons, fork_cons]
  · have hne : x ≠ p := fun h => hx (h ▸ List.prefix_rfl)
    rw [Function.update_of_ne hne, tree, under_eq_zero _ hx, tree, under_eq_zero _ hx]

theorem update_tree_below (p s : List α) (c : α) (r v : ℕ) (g : α → List α → ℕ) :
    Function.update (tree p r g) (p ++ c :: s) v
      = tree p r (Function.update g c (Function.update (g c) s v)) := by
  funext x
  by_cases hp : p <+: x
  · obtain ⟨z, rfl⟩ := hp
    rw [tree_append]
    cases z with
    | nil => rw [Function.update_of_ne (by simp), List.append_nil, tree_self, fork_nil]
    | cons d z =>
        rw [fork_cons]
        by_cases hd : d = c
        · subst hd
          rw [Function.update_self]
          by_cases hz : z = s
          · rw [hz, Function.update_self, Function.update_self]
          · rw [Function.update_of_ne (by simpa using hz), Function.update_of_ne hz, tree_append,
              fork_cons]
        · rw [Function.update_of_ne (by simp [hd]), Function.update_of_ne hd, tree_append,
            fork_cons]
  · have hne : x ≠ p ++ c :: s := fun h => hp (h ▸ List.prefix_append p _)
    rw [Function.update_of_ne hne, tree, tree, under_eq_zero _ hp, under_eq_zero _ hp]

theorem branches_update_below (p s : List α) (c : α) (r v : ℕ) (g : α → List α → ℕ) :
    branches (Function.update (tree p r g) (p ++ c :: s) v) p
      = {d | ∃ y, 0 < Function.update g c (Function.update (g c) s v) d y} := by
  rw [update_tree_below, branches_tree]

/-- The letters of a tree at its top. -/
def letters (g : α → List α → ℕ) : Set α := {d | ∃ y, 0 < g d y}

/-- A word below a letter counted anew: what the letter leads to is settled by itself, and
the top is dropped if more than `k` letters follow it either before or after, not both. -/
theorem settled_tree (k : ℕ) (p s : List α) (c : α) (r v : ℕ) (g : α → List α → ℕ) :
    settled k (tree p r g) (Function.update (tree p r g) (p ++ c :: s) v)
      = tree p
          (if k < (letters g).ncard
              ↔ k < (letters (Function.update g c (Function.update (g c) s v))).ncard
            then r else 0)
          (Function.update g c (settled k (g c) (Function.update (g c) s v))) := by
  funext x
  by_cases hx : x = p
  · subst hx
    have hwide : Wide k (tree x r g) x ↔ k < (letters g).ncard := by
      rw [Wide, branches_tree, letters]
    have hwide' : Wide k (Function.update (tree x r g) (x ++ c :: s) v) x
        ↔ k < (letters (Function.update g c (Function.update (g c) s v))).ncard := by
      rw [Wide, branches_update_below, letters]
    have hself : Function.update (tree x r g) (x ++ c :: s) v x = r := by
      rw [Function.update_of_ne (by simp), tree_self]
    rw [tree_self]
    split
    next h => rw [settled_of_iff (by rwa [hwide, hwide']), hself]
    next h => exact settled_of_not (by rwa [hwide, hwide'])
  · rw [settled_tree_below k p s c r v g hx]
    -- the two trees differ at their top only
    by_cases hp : p <+: x
    · obtain ⟨z, rfl⟩ := hp
      cases z with
      | nil => simp at hx
      | cons d z => rw [tree_append, tree_append, fork_cons, fork_cons]
    · rw [tree, tree, under_eq_zero _ hp, under_eq_zero _ hp]

/-- If there are words below the letter before and after, the top stays. -/
theorem settled_tree_kept (k : ℕ) (p s : List α) (c : α) (r v : ℕ) (g : α → List α → ℕ)
    (hg : ∃ y, 0 < g c y) (hnew : ∃ y, 0 < Function.update (g c) s v y) :
    settled k (tree p r g) (Function.update (tree p r g) (p ++ c :: s) v)
      = tree p r (Function.update g c (settled k (g c) (Function.update (g c) s v))) := by
  have hletters : letters (Function.update g c (Function.update (g c) s v)) = letters g := by
    ext d
    by_cases hd : d = c
    · subst hd
      simpa [letters, hg] using hnew
    · simp [letters, hd]
  rw [settled_tree, hletters, if_pos Iff.rfl]

variable [Finite α]

/-- Counting the word at the top of a tree anew changes nothing else. -/
theorem settled_tree_top {k : ℕ} (hk : 1 < k) (p : List α) (r v : ℕ) (g : α → List α → ℕ) :
    settled k (tree p r g) (Function.update (tree p r g) p v) = tree p v g := by
  have hkept : settled k (tree p r g) (Function.update (tree p r g) p v)
      = Function.update (tree p r g) p v :=
    settled_update_of_lt fun x c y hp => (branches_under_ncard _ hp).trans_lt hk
  rw [hkept, update_tree_self]

/-- The first word below a letter makes one letter more. -/
theorem settled_tree_more {k : ℕ} (hk : 0 < k) (p s : List α) (c : α) (r : ℕ) {v : ℕ}
    (hv : 0 < v) (g : α → List α → ℕ) (hg : g c = 0) :
    settled k (tree p r g) (Function.update (tree p r g) (p ++ c :: s) v)
      = tree p (if (letters g).ncard = k then 0 else r)
          (Function.update g c (Function.update (0 : List α → ℕ) s v)) := by
  have hbelow : settled k (g c) (Function.update (g c) s v)
      = Function.update (0 : List α → ℕ) s v := by
    rw [hg]
    refine settled_update_of_lt fun x d y _ => ?_
    rwa [branches_eq_empty fun _ _ => rfl, Set.ncard_empty]
  have hnot : c ∉ letters g := by
    rintro ⟨y, hy⟩
    rw [hg] at hy
    exact Nat.lt_irrefl 0 hy
  have hletters : letters (Function.update g c (Function.update (g c) s v))
      = insert c (letters g) := by
    ext d
    by_cases hd : d = c
    · subst hd
      simpa [letters] using ⟨s, by rwa [Function.update_self]⟩
    · simp [letters, hd]
  rw [settled_tree, hletters, Set.ncard_insert_of_notMem hnot, hbelow]
  congr 1
  split <;> split <;> first | rfl | omega

/-- The last word below a letter makes one letter less. -/
theorem settled_tree_gone (k : ℕ) (p s : List α) (c : α) (r v : ℕ)
    (g : α → List α → ℕ) (hg : ∃ y, 0 < g c y) (hnew : Function.update (g c) s v = 0) :
    settled k (tree p r g) (Function.update (tree p r g) (p ++ c :: s) v)
      = tree p (if (letters g).ncard = k + 1 then 0 else r) (Function.update g c 0) := by
  have hbelow : settled k (g c) (Function.update (g c) s v) = 0 := by
    funext x
    exact settled_of_eq_zero (by rw [hnew]; rfl)
  have hnot : c ∉ letters (Function.update g c (Function.update (g c) s v)) := by
    rintro ⟨y, hy⟩
    rw [hnew, Function.update_self] at hy
    exact Nat.lt_irrefl 0 hy
  have hletters : letters g
      = insert c (letters (Function.update g c (Function.update (g c) s v))) := by
    ext d
    by_cases hd : d = c
    · subst hd
      simpa [letters] using hg
    · simp [letters, hd]
  rw [settled_tree, hbelow, hletters, Set.ncard_insert_of_notMem hnot]
  congr 1
  split <;> split <;> first | rfl | omega

end Tree

/-! ## Lists of words -/

section Lists

variable [DecidableEq α]

/-- The letters that follow `x` in the words of the list, each once. -/
def nexts (ws : List (List α)) (x : List α) : List α :=
  (ws.filterMap fun w => (x.isPrefixOf? w).bind List.head?).dedup

/-- What is left of the words `ws'`, to which `ws` has changed. -/
def settle (k : ℕ) (ws ws' : List (List α)) : List (List α) :=
  ws'.filter fun x => k < (nexts ws x).length ↔ k < (nexts ws' x).length

theorem isPrefixOf?_eq_some_iff {x w y : List α} : x.isPrefixOf? w = some y ↔ x ++ y = w := by
  induction x generalizing w with
  | nil => cases w <;> simp [List.isPrefixOf?, eq_comm]
  | cons c x ih =>
      cases w with
      | nil => simp [List.isPrefixOf?]
      | cons d w =>
          by_cases h : c = d
          · simp [List.isPrefixOf?, h, ih]
          · simp [List.isPrefixOf?, h]

theorem mem_nexts {ws : List (List α)} {x : List α} {c : α} :
    c ∈ nexts ws x ↔ ∃ y, x ++ c :: y ∈ ws := by
  simp only [nexts, List.mem_dedup, List.mem_filterMap, Option.bind_eq_some_iff,
    isPrefixOf?_eq_some_iff, List.head?_eq_some_iff]
  constructor
  · rintro ⟨w, hw, z, rfl, y, rfl⟩
    exact ⟨y, hw⟩
  · rintro ⟨y, hy⟩
    exact ⟨_, hy, _, rfl, y, rfl⟩

theorem nodup_nexts (ws : List (List α)) (x : List α) : (nexts ws x).Nodup := List.nodup_dedup _

theorem branches_count (ws : List (List α)) (x : List α) :
    branches (fun w => ws.count w) x = {c | c ∈ nexts ws x} := by
  ext c
  refine Iff.trans ?_ mem_nexts.symm
  simp only [mem_branches, List.count_pos_iff]

theorem wide_count {k : ℕ} {ws : List (List α)} {x : List α} :
    Wide k (fun w => ws.count w) x ↔ k < (nexts ws x).length := by
  have hset : {c | c ∈ nexts ws x} = ((nexts ws x).toFinset : Set α) := by
    ext c
    simp
  rw [Wide, branches_count, hset, Set.ncard_coe_finset,
    List.toFinset_card_of_nodup (nodup_nexts ws x)]

/-- The list against the counts: what is settled is the same. -/
theorem count_settle (k : ℕ) (ws ws' : List (List α)) (x : List α) :
    (settle k ws ws').count x
      = settled k (fun w => ws.count w) (fun w => ws'.count w) x := by
  have hdrop : (settle k ws ws').count x
      = if k < (nexts ws x).length ↔ k < (nexts ws' x).length then ws'.count x else 0 := by
    rw [settle]
    split
    next h => exact List.count_filter (by simpa using h)
    next h =>
        refine List.count_eq_zero.mpr fun hmem => h ?_
        simpa using (List.mem_filter.mp hmem).2
  rw [hdrop]
  simp only [settled, wide_count]

end Lists

end Branching

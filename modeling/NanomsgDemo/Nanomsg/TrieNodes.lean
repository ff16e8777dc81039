import NanomsgDemo.Lib.Branching
import NanomsgDemo.Nanomsg.Trie

/-!
# What a node of the trie counts

`count n` is how often the node and those below it count each string. A node is `Sound`
if its arrays are as `trie.h` says, its prefix and its count fit their fields, and it is
counted itself if nothing is below it; so are the nodes below it. Then it counts at least
one string, and the letters its strings go on with behind its prefix are those of its array.
-/

namespace NanomsgDemo.Nanomsg

open Net (Byte)
open Branching

namespace NnTrieNode

/-- The node that a letter leads to. -/
def after (n : NnTrieNode) (c : Byte) : Option NnTrieNode :=
  (nnNodeNext n c).bind fun i => n.child[i]?.join

/-- How often a string is subscribed to, at the node or below it. -/
def count (n : NnTrieNode) (x : List Byte) : ℕ :=
  match _h : n.prefixBytes.isPrefixOf? x with
  | none => 0
  | some [] => n.refcount
  | some (c :: y) =>
      match n.after c with
      | none => 0
      | some ch => ch.count y
termination_by x.length
decreasing_by
  have := congrArg List.length (isPrefixOf?_eq_some_iff.mp _h)
  simp only [List.length_append, List.length_cons] at this
  omega

/-- The letters of the array that have a child. -/
def heads (n : NnTrieNode) : Set Byte := {c | (n.after c).isSome}

/-- The two arrays, as `trie.h` describes them. -/
def Arrays (n : NnTrieNode) : Prop :=
  match n.u with
  | .sparse children =>
      children.length ≤ NN_TRIE_SPARSE_MAX ∧ children.Nodup ∧
        n.child.length = children.length ∧ none ∉ n.child
  | .dense min max nbr =>
      min ≤ max ∧ n.child.length = max.toNat - min.toNat + 1 ∧
        n.heads.ncard = nbr ∧ NN_TRIE_SPARSE_MAX < nbr

/-- What holds of a node by itself. -/
structure Ok (n : NnTrieNode) : Prop where
  arrays : n.Arrays
  fits : n.prefixBytes.length ≤ NN_TRIE_PREFIX_MAX
  counted : n.refcount < 2 ^ 32

inductive Sound : NnTrieNode → Prop
  | intro {n : NnTrieNode} (ok : n.Ok) (used : n.u = .sparse [] → 0 < n.refcount)
      (kids : ∀ c ch, n.after c = some ch → Sound ch) : Sound n

/-- A node that is sound once it counts something. -/
structure Built (n : NnTrieNode) : Prop where
  ok : n.Ok
  child : ∀ {c ch}, n.after c = some ch → ch.Sound

theorem Sound.built {n : NnTrieNode} (h : n.Sound) : n.Built := by
  cases h with
  | intro ok _ kids => exact ⟨ok, fun {c ch} => kids c ch⟩

theorem Sound.used {n : NnTrieNode} (h : n.Sound) : n.u = .sparse [] → 0 < n.refcount := by
  cases h with
  | intro _ used _ => exact used

theorem Built.sound {n : NnTrieNode} (h : n.Built) (hu : n.u = .sparse [] → 0 < n.refcount) :
    n.Sound :=
  .intro h.ok hu fun _ _ hc => h.child hc

end NnTrieNode

open NnTrieNode

/-- The strings counted below a pointer. -/
def countOf : Option NnTrieNode → List Byte → ℕ
  | none => 0
  | some n => n.count

@[simp] theorem countOf_none : countOf none = 0 := rfl

@[simp] theorem countOf_some (n : NnTrieNode) : countOf (some n) = n.count := rfl

/-- The strings counted below each letter of a node. -/
def NnTrieNode.kids (n : NnTrieNode) (c : Byte) : List Byte → ℕ :=
  countOf (n.after c)

theorem NnTrieNode.kids_of_none {n : NnTrieNode} {c : Byte} (h : n.after c = none) :
    n.kids c = 0 := by rw [kids, h, countOf_none]

theorem NnTrieNode.kids_of_some {n ch : NnTrieNode} {c : Byte} (h : n.after c = some ch) :
    n.kids c = ch.count := by rw [kids, h, countOf_some]

theorem count_eq (n : NnTrieNode) : n.count = tree n.prefixBytes n.refcount n.kids := by
  funext x
  rw [count, tree, under]
  split
  next h => rw [h]
  next h => rw [h]; rfl
  next c y h =>
      rw [h]
      dsimp only [fork, kids]
      cases n.after c <;> rfl

theorem count_self (n : NnTrieNode) : n.count n.prefixBytes = n.refcount := by
  rw [count_eq, tree_self]

/-! ## The letters of a node and their slots -/

theorem agreeing_le (p d : List Byte) : agreeing p d ≤ p.length := by
  fun_induction agreeing p d with
  | case1 ps d ds ih => simpa using ih
  | case2 => simp
  | case3 => simp

theorem agreeing_eq_length_iff {p d : List Byte} : agreeing p d = p.length ↔ p <+: d := by
  fun_induction agreeing p d with
  | case1 ps d ds ih => simpa using ih
  | case2 p ps d ds h => simp [List.cons_prefix_cons, h]
  | case3 p d h =>
      cases p with
      | nil => simp
      | cons q p =>
          cases d with
          | nil => simp
          | cons e d => exact absurd rfl (h q p e d rfl)

/-- Where a prefix and data part. -/
theorem agreeing_lt {p d : List Byte} (h : agreeing p d < p.length) :
    ∃ a q b e, p = a ++ q :: b ∧ d = a ++ e ∧ a.length = agreeing p d ∧
      ∀ c r, e = c :: r → q ≠ c := by
  fun_induction agreeing p d with
  | case1 ps d ds ih =>
      obtain ⟨a, q, b, e, rfl, rfl, hlen, hne⟩ := ih (by simpa using h)
      exact ⟨d :: a, q, b, e, rfl, rfl, by simp [hlen], hne⟩
  | case2 p ps d ds hd =>
      refine ⟨[], p, ps, d :: ds, rfl, rfl, rfl, ?_⟩
      rintro c r heq
      rw [List.cons.injEq] at heq
      exact heq.1 ▸ hd
  | case3 p d hp =>
      cases p with
      | nil => simp at h
      | cons q p =>
          cases d with
          | nil => exact ⟨[], q, p, [], rfl, rfl, rfl, by simp⟩
          | cons e d => exact absurd rfl (hp q p e d rfl)

theorem nnNodeNext_inj {n : NnTrieNode} {c d : Byte} {i : ℕ} (hc : nnNodeNext n c = some i)
    (hd : nnNodeNext n d = some i) : c = d := by
  unfold nnNodeNext at hc hd
  cases hu : n.u with
  | sparse children =>
      rw [hu] at hc hd
      obtain ⟨hi, hci, -⟩ := List.idxOf?_eq_some_iff.mp hc
      obtain ⟨_, hdi, -⟩ := List.idxOf?_eq_some_iff.mp hd
      rw [← hci, hdi]
  | dense min max nbr =>
      rw [hu] at hc hd
      dsimp only at hc hd
      split at hc
      next => simp at hc
      next hcm =>
          split at hd
          next => simp at hd
          next hdm =>
              simp only [Option.some.injEq, not_or, UInt8.not_lt, UInt8.le_iff_toNat_le] at *
              exact UInt8.toNat_inj.mp (by omega)

theorem nnNodeNext_lt {n : NnTrieNode} (h : n.Arrays) {c : Byte} {i : ℕ}
    (hc : nnNodeNext n c = some i) : i < n.child.length := by
  unfold nnNodeNext at hc
  unfold Arrays at h
  cases hu : n.u with
  | sparse children =>
      rw [hu] at hc h
      obtain ⟨hi, -⟩ := List.idxOf?_eq_some_iff.mp hc
      rw [h.2.2.1]
      exact hi
  | dense min max nbr =>
      rw [hu] at hc h
      dsimp only at hc h
      split at hc
      next => simp at hc
      next hcm =>
          simp only [Option.some.injEq, not_or, UInt8.not_lt, UInt8.le_iff_toNat_le] at *
          omega

/-- A slot is set: its letter leads there now, all others where they did. -/
theorem after_set {n : NnTrieNode} {c : Byte} {i : ℕ} (hc : nnNodeNext n c = some i)
    (hi : i < n.child.length) (o : Option NnTrieNode) (d : Byte) :
    after { n with child := n.child.set i o } d = if d = c then o else n.after d := by
  have hnext : ∀ d, nnNodeNext { n with child := n.child.set i o } d = nnNodeNext n d :=
    fun _ => rfl
  unfold after
  rw [hnext]
  by_cases hd : d = c
  · subst hd
    rw [hc, if_pos rfl, Option.bind_some, List.getElem?_set_self hi]
    rfl
  · rw [if_neg hd]
    cases hdi : nnNodeNext n d with
    | none => rfl
    | some j =>
        have hne : i ≠ j := fun h => hd (nnNodeNext_inj hdi (h ▸ hc))
        rw [Option.bind_some, Option.bind_some, List.getElem?_set_ne hne]

theorem ChildIndex.sparse_or_dense (u : ChildIndex) :
    (∃ children, u = .sparse children) ∨ ∃ min max nbr, u = .dense min max nbr := by
  cases u with
  | sparse children => exact Or.inl ⟨children, rfl⟩
  | dense min max nbr => exact Or.inr ⟨min, max, nbr, rfl⟩

theorem arrays_sparse {n : NnTrieNode} {children : List Byte} (hu : n.u = .sparse children) :
    n.Arrays ↔ children.length ≤ NN_TRIE_SPARSE_MAX ∧ children.Nodup ∧
      n.child.length = children.length ∧ none ∉ n.child := by
  rw [Arrays, hu]

theorem arrays_dense {n : NnTrieNode} {min max : Byte} {nbr : ℕ} (hu : n.u = .dense min max nbr) :
    n.Arrays ↔ min ≤ max ∧ n.child.length = max.toNat - min.toNat + 1 ∧
      n.heads.ncard = nbr ∧ NN_TRIE_SPARSE_MAX < nbr := by
  rw [Arrays, hu]

theorem after_sparse_iff {n : NnTrieNode} {children : List Byte} (hu : n.u = .sparse children)
    (hnodup : children.Nodup) {c : Byte} {ch : NnTrieNode} :
    n.after c = some ch ↔
      ∃ i : ℕ, children[i]? = some c ∧ n.child[i]? = some (some ch) := by
  simp only [after, nnNodeNext, hu, Option.bind_eq_some_iff, Option.join_eq_some_iff]
  refine exists_congr fun i => and_congr_left fun _ => ?_
  rw [List.idxOf?_eq_some_iff, List.getElem?_eq_some_iff]
  refine exists_congr fun hi => and_iff_left_of_imp fun hci j hj hcj => ?_
  -- no letter stands at two places
  have hij : j = i := hnodup.getElem_inj_iff.mp (hcj.trans hci.symm)
  omega

theorem after_dense_iff {n : NnTrieNode} {min max : Byte} {nbr : ℕ} (hu : n.u = .dense min max nbr)
    {c : Byte} {ch : NnTrieNode} :
    n.after c = some ch
      ↔ min ≤ c ∧ c ≤ max ∧ n.child[c.toNat - min.toNat]? = some (some ch) := by
  simp only [after, nnNodeNext, hu]
  by_cases hc : c < min ∨ max < c
  · rw [if_pos hc]
    simp only [Option.bind_none, reduceCtorEq, false_iff, not_and]
    intro hmin hmax
    rcases hc with h | h
    · exact absurd h (UInt8.not_lt.mpr hmin)
    · exact absurd h (UInt8.not_lt.mpr hmax)
  · rw [if_neg hc, Option.bind_some, Option.join_eq_some_iff]
    simp only [not_or, UInt8.not_lt] at hc
    simp only [hc.1, hc.2, true_and]

theorem mem_heads {n : NnTrieNode} {c : Byte} : c ∈ n.heads ↔ ∃ ch, n.after c = some ch :=
  Option.isSome_iff_exists

theorem not_mem_heads {n : NnTrieNode} {c : Byte} : c ∉ n.heads ↔ n.after c = none := by
  rw [heads, Set.mem_ofPred_eq, Option.not_isSome_iff_eq_none]

theorem heads_sparse {n : NnTrieNode} (h : n.Arrays) {children : List Byte}
    (hu : n.u = .sparse children) : n.heads = {c | c ∈ children} := by
  obtain ⟨-, hnodup, hlen, hnone⟩ := (arrays_sparse hu).mp h
  ext c
  rw [mem_heads, Set.mem_ofPred_eq, List.mem_iff_getElem?]
  constructor
  · rintro ⟨ch, hch⟩
    obtain ⟨i, hi, -⟩ := (after_sparse_iff hu hnodup).mp hch
    exact ⟨i, hi⟩
  · rintro ⟨i, hi⟩
    have hlt : i < n.child.length := by
      rw [hlen]
      exact (List.getElem?_eq_some_iff.mp hi).1
    -- no pointer of a sparse array is null
    cases ho : n.child[i] with
    | none => exact absurd (ho ▸ List.getElem_mem hlt) hnone
    | some ch =>
        exact ⟨ch, (after_sparse_iff hu hnodup).mpr
          ⟨i, hi, by rw [List.getElem?_eq_getElem hlt, ho]⟩⟩

/-- How many children the arrays say there are. -/
def ChildIndex.width : ChildIndex → ℕ
  | .sparse children => children.length
  | .dense _ _ nbr => nbr

theorem heads_ncard {n : NnTrieNode} (h : n.Arrays) : n.heads.ncard = n.u.width := by
  cases hu : n.u with
  | sparse children =>
      have hset : {c | c ∈ children} = (children.toFinset : Set Byte) := by
        ext c
        simp
      rw [heads_sparse h hu, hset, Set.ncard_coe_finset,
        List.toFinset_card_of_nodup ((arrays_sparse hu).mp h).2.1, ChildIndex.width]
  | dense min max nbr =>
      exact ((arrays_dense hu).mp h).2.2.1

/-! ## What a sound node counts -/

/-- Some string is subscribed to at a sound node or below it. -/
theorem NnTrieNode.Sound.exists_count {n : NnTrieNode} (h : n.Sound) : ∃ y, 0 < n.count y := by
  induction h with
  | @intro n ok used _ ih =>
      by_cases hu : n.u = .sparse []
      · exact ⟨n.prefixBytes, by rw [count_self]; exact used hu⟩
      · have hwidth : 0 < n.heads.ncard := by
          rw [heads_ncard ok.arrays]
          cases hn : n.u with
          | sparse children =>
              rw [hn] at hu
              exact List.length_pos_of_ne_nil fun h => hu (by rw [h])
          | dense min max nbr =>
              exact (Nat.zero_lt_succ _).trans ((arrays_dense hn).mp ok.arrays).2.2.2
        obtain ⟨c, hc⟩ := Set.nonempty_of_ncard_ne_zero hwidth.ne'
        obtain ⟨ch, hch⟩ := mem_heads.mp hc
        obtain ⟨y, hy⟩ := ih c ch hch
        exact ⟨n.prefixBytes ++ c :: y, by
          rw [count_eq, tree_append, fork_cons, kids, hch]
          exact hy⟩

/-- The letters that its strings go on with are those of its array. -/
theorem NnTrieNode.Built.letters_kids {n : NnTrieNode} (h : n.Built) :
    letters n.kids = n.heads := by
  ext c
  rw [mem_heads]
  constructor
  · rintro ⟨y, hy⟩
    cases hc : n.after c with
    | none => simp [kids, hc] at hy
    | some ch => exact ⟨ch, rfl⟩
  · rintro ⟨ch, hc⟩
    obtain ⟨y, hy⟩ := (h.child hc).exists_count
    exact ⟨y, by simpa only [kids, hc, countOf_some] using hy⟩

/-- What a node counts that has another one's prefix, and children but for one letter. -/
theorem count_of_after {n n' : NnTrieNode} {c : Byte} {o : Option NnTrieNode}
    (hafter : ∀ d, n'.after d = if d = c then o else n.after d)
    (hp : n'.prefixBytes = n.prefixBytes) :
    n'.count = tree n.prefixBytes n'.refcount (Function.update n.kids c (countOf o)) := by
  rw [count_eq, hp]
  congr 1
  funext d
  rw [kids, hafter]
  by_cases hd : d = c
  · subst hd
    rw [if_pos rfl, Function.update_self]
  · rw [if_neg hd, Function.update_of_ne hd, kids]

/-! ## The steps of a subscription -/

theorem subscribed_snd {n : NnTrieNode} (hlt : n.refcount + 1 < 2 ^ 32) :
    (subscribed n).2 = if n.refcount = 0 then 1 else 0 := by
  simp only [subscribed, Nat.mod_eq_of_lt hlt, Nat.add_eq_right]

theorem subscribed_sound {n : NnTrieNode} (h : n.Built) (hlt : n.refcount + 1 < 2 ^ 32) :
    (subscribed n).1.Sound := by
  have hrefcount : (subscribed n).1.refcount = n.refcount + 1 := Nat.mod_eq_of_lt hlt
  refine Built.sound ⟨⟨h.ok.arrays, h.ok.fits, ?_⟩, h.child⟩ fun _ => ?_
  · rw [hrefcount]
    exact hlt
  · rw [hrefcount]
    exact Nat.succ_pos _

theorem subscribed_count {n : NnTrieNode} (hlt : n.refcount + 1 < 2 ^ 32) :
    (subscribed n).1.count = tree n.prefixBytes (n.refcount + 1) n.kids := by
  rw [count_eq]
  congr 1
  exact Nat.mod_eq_of_lt hlt

/-- A node that leads to one child and is nothing but that. -/
def oneChild (p : List Byte) (c : Byte) (ch : NnTrieNode) : NnTrieNode :=
  { refcount := 0, prefixBytes := p, u := .sparse [c], child := [some ch] }

theorem after_oneChild (p : List Byte) (c : Byte) (ch : NnTrieNode) (d : Byte) :
    (oneChild p c ch).after d = if d = c then some ch else none := by
  by_cases hd : d = c
  · subst hd
    simp [after, nnNodeNext, oneChild]
  · have hcd : c ≠ d := fun h => hd h.symm
    simp [after, nnNodeNext, oneChild, hd, hcd]

theorem oneChild_built {p : List Byte} (c : Byte) {ch : NnTrieNode} (hch : ch.Sound)
    (hp : p.length ≤ NN_TRIE_PREFIX_MAX) : (oneChild p c ch).Built := by
  refine ⟨⟨?_, hp, Nat.two_pow_pos 32⟩, fun {d ch'} hd => ?_⟩
  · simp [Arrays, oneChild, NN_TRIE_SPARSE_MAX]
  · rw [after_oneChild] at hd
    split at hd
    next => exact Option.some.inj hd ▸ hch
    next => simp at hd

theorem oneChild_sound {p : List Byte} (c : Byte) {ch : NnTrieNode} (hch : ch.Sound)
    (hp : p.length ≤ NN_TRIE_PREFIX_MAX) : (oneChild p c ch).Sound :=
  (oneChild_built c hch hp).sound fun h => by simp [oneChild] at h

theorem oneChild_kids (p : List Byte) (c : Byte) (ch : NnTrieNode) (d : Byte) :
    (oneChild p c ch).kids d = if d = c then ch.count else 0 := by
  rw [kids, after_oneChild]
  split <;> rfl

theorem oneChild_count (p : List Byte) (c : Byte) (ch : NnTrieNode) :
    (oneChild p c ch).count = under (p ++ [c]) ch.count := by
  have hother : ∀ d, d ≠ c → (oneChild p c ch).kids d = 0 := fun d hd => by
    rw [oneChild_kids, if_neg hd]
  have hcount : (oneChild p c ch).count = tree p 0 (oneChild p c ch).kids := count_eq _
  rw [hcount, tree_single p c hother, oneChild_kids, if_pos rfl]

/-- New nodes count the string they are made for, once. -/
theorem newNodes_spec (data : List Byte) :
    (newNodes data).1.Sound ∧ (newNodes data).2 = 1 ∧
      (newNodes data).1.count = Function.update (0 : List Byte → ℕ) data 1 := by
  fun_induction newNodes data with
  | case1 data hdrop =>
      have hfits : data.length ≤ NN_TRIE_PREFIX_MAX := List.drop_eq_nil_iff.mp hdrop
      have hafter : ∀ d,
          after { refcount := 0, prefixBytes := data, u := .sparse [], child := [] } d = none :=
        fun d => by simp [after, nnNodeNext]
      have hbuilt : Built { refcount := 0, prefixBytes := data, u := .sparse [], child := [] } :=
        ⟨⟨by simp [Arrays], hfits, Nat.two_pow_pos 32⟩, fun {c ch} hc => by simp [hafter] at hc⟩
      have hone : 0 + 1 < 2 ^ 32 := by decide
      refine ⟨subscribed_sound hbuilt hone, rfl, ?_⟩
      rw [subscribed_count hone]
      exact tree_leaf data 1 fun c => by rw [kids, hafter]; rfl
  | case2 data c rest hdrop new ih =>
      obtain ⟨hsound, hret, hcount⟩ := ih
      have hdata : data = data.take NN_TRIE_PREFIX_MAX ++ [c] ++ rest := by
        rw [List.append_assoc, List.singleton_append, ← hdrop, List.take_append_drop]
      refine ⟨oneChild_sound c hsound (List.length_take_le _ _), hret, ?_⟩
      have h := oneChild_count (data.take NN_TRIE_PREFIX_MAX) c (newNodes rest).1
      rw [hcount, under_update, ← hdata] at h
      exact h

/-- A sound node is compacted to a sound one that counts the same. -/
theorem compact_spec {n : NnTrieNode} (h : n.Sound) :
    ∃ n', nnNodeCompact n = some n' ∧ n'.Sound ∧ n'.count = n.count := by
  unfold nnNodeCompact
  by_cases hs : nnNodeHasSubscribers n
  · exact ⟨n, if_pos hs, h, rfl⟩
  · rw [if_neg hs]
    have hzero : n.refcount = 0 := by simpa [nnNodeHasSubscribers] using hs
    have harrays := h.built.ok.arrays
    split
    next c hu =>
        obtain ⟨-, -, hlen, hnone⟩ := (arrays_sparse hu).mp harrays
        obtain ⟨o, ho⟩ := List.length_eq_one_iff.mp hlen
        cases o with
        | none => simp [ho] at hnone
        | some ch =>
            have hn : n = oneChild n.prefixBytes c ch := by
              cases n
              simp_all [oneChild]
            have hch : ch.Sound := h.built.child (c := c) (by rw [hn, after_oneChild, if_pos rfl])
            rw [ho]
            dsimp only
            split
            next => exact ⟨n, rfl, h, rfl⟩
            next hfits =>
                refine ⟨_, rfl, ?_, ?_⟩
                · refine Built.sound ⟨⟨hch.built.ok.arrays, ?_, hch.built.ok.counted⟩,
                    hch.built.child⟩ hch.used
                  simp only [List.length_append, List.length_cons]
                  omega
                · have hcount : n.count = under (n.prefixBytes ++ [c]) ch.count := by
                    conv_lhs => rw [hn]
                    exact oneChild_count _ c ch
                  rw [hcount, count_eq, count_eq ch, tree, tree, ← under_append,
                    List.append_assoc, List.singleton_append]
                  rfl
    next => exact ⟨n, rfl, h, rfl⟩

/-! ## A child for a letter that has none -/

theorem finite_byte : Finite Byte :=
  Finite.of_injective UInt8.toFin fun _ _ h => UInt8.toFin_inj.mp h

theorem heads_insert {n n' : NnTrieNode} {c : Byte} {ch : NnTrieNode}
    (hafter : ∀ d, n'.after d = if d = c then some ch else n.after d) :
    n'.heads = insert c n.heads := by
  ext d
  rw [Set.mem_insert_iff, mem_heads, mem_heads, hafter]
  by_cases hd : d = c
  · simp [hd]
  · simp [hd]

theorem heads_congr {n n' : NnTrieNode} (hafter : ∀ d, n'.after d = n.after d) :
    n'.heads = n.heads := by
  ext d
  rw [mem_heads, mem_heads, hafter]

/-- A letter and a pointer more in a sparse array. -/
theorem after_append {n : NnTrieNode} (h : n.Arrays) {children : List Byte}
    (hu : n.u = .sparse children) {c : Byte} (hc : c ∉ children) (ch : NnTrieNode) (d : Byte) :
    after { n with u := .sparse (children ++ [c]), child := n.child ++ [some ch] } d
      = if d = c then some ch else n.after d := by
  obtain ⟨-, hnodup, hlen, -⟩ := (arrays_sparse hu).mp h
  have hnodup' : (children ++ [c]).Nodup := by
    rw [List.nodup_append_comm]
    exact List.nodup_cons.mpr ⟨hc, hnodup⟩
  refine Option.ext fun ch' => ?_
  rw [after_sparse_iff rfl hnodup']
  by_cases hd : d = c
  · subst hd
    simp only [if_true, Option.some.injEq]
    constructor
    · rintro ⟨i, hi, hi'⟩
      -- the letter stands at the new place only
      have hlast : i = children.length := by
        obtain ⟨hlt, hget⟩ := List.getElem?_eq_some_iff.mp hi
        by_contra hne
        rw [List.length_append, List.length_singleton] at hlt
        rw [List.getElem_append_left (by omega)] at hget
        exact hc (hget ▸ List.getElem_mem _)
      rw [hlast, ← hlen, List.getElem?_concat_length, Option.some.injEq, Option.some.injEq] at hi'
      exact hi'
    · rintro rfl
      exact ⟨children.length, List.getElem?_concat_length, by
        rw [← hlen, List.getElem?_concat_length]⟩
  · rw [if_neg hd, after_sparse_iff hu hnodup]
    refine exists_congr fun i => ?_
    by_cases hi : i < children.length
    · rw [List.getElem?_append_left hi, List.getElem?_append_left (by omega)]
    · have hold : children[i]? = none := List.getElem?_eq_none (by omega)
      simp only [hold, reduceCtorEq, false_and, iff_false, not_and]
      intro hi'
      obtain ⟨hlt, hget⟩ := List.getElem?_eq_some_iff.mp hi'
      rw [List.length_append, List.length_singleton] at hlt
      rw [List.getElem_append_right (by omega), List.getElem_singleton] at hget
      exact absurd hget.symm hd

theorem min_le_both (a b : Byte) : Min.min a b ≤ a ∧ Min.min a b ≤ b := by
  have hmin : Min.min a b = if a ≤ b then a else b := rfl
  rw [hmin]
  split <;> grind

theorem le_max_both (a b : Byte) : a ≤ Max.max a b ∧ b ≤ Max.max a b := by
  have hmax : Max.max a b = if a ≤ b then b else a := rfl
  rw [hmax]
  split <;> grind

theorem foldl_min_le (l : List Byte) (a : Byte) :
    l.foldl Min.min a ≤ a ∧ ∀ d ∈ l, l.foldl Min.min a ≤ d := by
  induction l generalizing a with
  | nil => simp
  | cons b l ih =>
      obtain ⟨hle, hmem⟩ := ih (Min.min a b)
      have hab := min_le_both a b
      refine ⟨UInt8.le_trans hle hab.1, fun d hd => ?_⟩
      rcases List.mem_cons.mp hd with rfl | hd
      · exact UInt8.le_trans hle hab.2
      · exact hmem d hd

theorem le_foldl_max (l : List Byte) (a : Byte) :
    a ≤ l.foldl Max.max a ∧ ∀ d ∈ l, d ≤ l.foldl Max.max a := by
  induction l generalizing a with
  | nil => simp
  | cons b l ih =>
      obtain ⟨hle, hmem⟩ := ih (Max.max a b)
      have hab := le_max_both a b
      refine ⟨UInt8.le_trans hab.1 hle, fun d hd => ?_⟩
      rcases List.mem_cons.mp hd with rfl | hd
      · exact UInt8.le_trans hab.2 hle
      · exact hmem d hd

/-- Pointers are put into the slots of their letters. -/
def filled (min : Byte) (ps : List (Byte × Option NnTrieNode)) (slots : List (Option NnTrieNode)) :
    List (Option NnTrieNode) :=
  ps.foldl (fun slots p => slots.set (p.1.toNat - min.toNat) p.2) slots

theorem length_filled (min : Byte) (ps : List (Byte × Option NnTrieNode))
    (slots : List (Option NnTrieNode)) : (filled min ps slots).length = slots.length := by
  induction ps generalizing slots with
  | nil => rfl
  | cons p ps ih => exact (ih _).trans List.length_set

theorem filled_of_not_mem {min : Byte} {ps : List (Byte × Option NnTrieNode)}
    (hmin : ∀ p ∈ ps, min ≤ p.1) {d : Byte} (hd : min ≤ d) (hnot : d ∉ ps.map Prod.fst)
    (slots : List (Option NnTrieNode)) :
    (filled min ps slots)[d.toNat - min.toNat]? = slots[d.toNat - min.toNat]? := by
  induction ps generalizing slots with
  | nil => rfl
  | cons p ps ih =>
      rw [List.map_cons, List.mem_cons, not_or] at hnot
      have hp := hmin p List.mem_cons_self
      rw [UInt8.le_iff_toNat_le] at hp hd
      have hne : p.1.toNat - min.toNat ≠ d.toNat - min.toNat := fun h =>
        hnot.1 (UInt8.toNat_inj.mp (by omega))
      have hrest := ih (fun q hq => hmin q (List.mem_cons_of_mem _ hq)) hnot.2
        (slots.set (p.1.toNat - min.toNat) p.2)
      rw [List.getElem?_set_ne hne] at hrest
      exact hrest

theorem filled_of_mem {min : Byte} {ps : List (Byte × Option NnTrieNode)}
    (hmin : ∀ p ∈ ps, min ≤ p.1) (hnodup : (ps.map Prod.fst).Nodup) {d : Byte}
    {o : Option NnTrieNode} (hmem : (d, o) ∈ ps) {slots : List (Option NnTrieNode)}
    (hlt : d.toNat - min.toNat < slots.length) :
    (filled min ps slots)[d.toNat - min.toNat]? = some o := by
  induction ps generalizing slots with
  | nil => simp at hmem
  | cons p ps ih =>
      rw [List.map_cons, List.nodup_cons] at hnodup
      have hmin' : ∀ q ∈ ps, min ≤ q.1 := fun q hq => hmin q (List.mem_cons_of_mem _ hq)
      rcases List.mem_cons.mp hmem with rfl | hmem
      · have hrest := filled_of_not_mem hmin' (hmin _ hmem) hnodup.1
          (slots.set (d.toNat - min.toNat) o)
        rw [List.getElem?_set_self hlt] at hrest
        exact hrest
      · exact ih hmin' hnodup.2 hmem (by rwa [List.length_set])

/-- The dense array leads where the sparse one did. -/
theorem toDense_spec {n : NnTrieNode} (h : n.Arrays) {children : List Byte}
    (hu : n.u = .sparse children) (c : Byte) :
    ∃ min max, min ≤ c ∧ c ≤ max ∧ (toDense n children c).u = .dense min max (children.length + 1) ∧
      (toDense n children c).child.length = max.toNat - min.toNat + 1 ∧
      ∀ d, (toDense n children c).after d = n.after d := by
  obtain ⟨-, hnodup, hlen, -⟩ := (arrays_sparse hu).mp h
  have hmin := min_le_both (children.foldl Min.min 255) c
  have hmax := le_max_both (children.foldl Max.max 0) c
  refine ⟨_, _, hmin.2, hmax.2, rfl, (length_filled _ _ _).trans List.length_replicate, fun d => ?_⟩
  have hfst : (children.zip n.child).map Prod.fst = children := List.map_fst_zip hlen.ge
  have hmem : ∀ p ∈ children.zip n.child, p.1 ∈ children := fun p hp =>
    hfst ▸ List.mem_map_of_mem hp
  have hlow : ∀ p ∈ children.zip n.child,
      Min.min (children.foldl Min.min 255) c ≤ p.1 := fun p hp =>
    UInt8.le_trans hmin.1 ((foldl_min_le children 255).2 _ (hmem p hp))
  have hhigh : ∀ p ∈ children.zip n.child,
      p.1 ≤ Max.max (children.foldl Max.max 0) c := fun p hp =>
    UInt8.le_trans ((le_foldl_max children 0).2 _ (hmem p hp)) hmax.1
  have hslot : ∀ o, (d, o) ∈ children.zip n.child →
      (toDense n children c).child[d.toNat - (Min.min (children.foldl Min.min 255) c).toNat]?
        = some o := fun o ho => by
    refine filled_of_mem hlow (by rw [hfst]; exact hnodup) ho ?_
    have h₁ : Min.min (children.foldl Min.min 255) c ≤ d := hlow _ ho
    have h₂ : d ≤ Max.max (children.foldl Max.max 0) c := hhigh _ ho
    rw [UInt8.le_iff_toNat_le] at h₁ h₂
    rw [List.length_replicate]
    omega
  have hold : ∀ ch, n.after d = some ch ↔ (d, some ch) ∈ children.zip n.child := fun ch => by
    rw [after_sparse_iff hu hnodup, List.mem_iff_getElem?]
    exact exists_congr fun i => by rw [List.getElem?_zip_eq_some]
  refine Option.ext fun ch => ?_
  rw [after_dense_iff rfl, hold]
  constructor
  · rintro ⟨hle, -, hch⟩
    by_cases hd : d ∈ children
    · obtain ⟨p, hp, rfl⟩ := List.mem_map.mp (hfst.symm ▸ hd)
      have hp' := hslot p.2 hp
      rw [hch, Option.some.injEq] at hp'
      rw [hp']
      exact hp
    · -- the slot of a letter that the sparse array does not have is null
      have hempty := filled_of_not_mem hlow hle (hfst.symm ▸ hd) (List.replicate
        ((Max.max (children.foldl Max.max 0) c).toNat
          - (Min.min (children.foldl Min.min 255) c).toNat + 1) none)
      rw [List.getElem?_replicate] at hempty
      have hch' := hempty.symm.trans hch
      split at hch' <;> simp at hch'
  · intro hp
    exact ⟨hlow _ hp, hhigh _ hp, hslot _ hp⟩

/-- Null pointers behind the end of a dense array lead nowhere. -/
theorem after_dense_right {n n' : NnTrieNode} {min max max' : Byte} {nbr nbr' k : ℕ}
    (hu : n.u = .dense min max nbr) (hlen : n.child.length = max.toNat - min.toNat + 1)
    (hle : min ≤ max) (hmax : max ≤ max') (hu' : n'.u = .dense min max' nbr')
    (hchild : n'.child = n.child ++ List.replicate k none) (d : Byte) :
    n'.after d = n.after d := by
  refine Option.ext fun ch => ?_
  rw [after_dense_iff hu, after_dense_iff hu', hchild]
  refine and_congr_right fun hmin => ?_
  rw [UInt8.le_iff_toNat_le] at hle hmax hmin
  rw [UInt8.le_iff_toNat_le, UInt8.le_iff_toNat_le]
  by_cases hd : d.toNat - min.toNat < n.child.length
  · rw [List.getElem?_append_left hd]
    exact and_congr_left fun _ => ⟨fun _ => by omega, fun _ => by omega⟩
  · rw [List.getElem?_append_right (by omega), List.getElem?_replicate,
      List.getElem?_eq_none (Nat.not_lt.mp hd)]
    constructor
    · rintro ⟨-, h⟩
      split at h <;> simp at h
    · rintro ⟨-, h⟩
      simp at h

/-- Nor do they before its beginning. -/
theorem after_dense_left {n n' : NnTrieNode} {min min' max : Byte} {nbr nbr' : ℕ}
    (hu : n.u = .dense min max nbr) (hmin : min' ≤ min) (hu' : n'.u = .dense min' max nbr')
    (hchild : n'.child = List.replicate (min.toNat - min'.toNat) none ++ n.child) (d : Byte) :
    n'.after d = n.after d := by
  refine Option.ext fun ch => ?_
  rw [after_dense_iff hu, after_dense_iff hu', hchild]
  rw [UInt8.le_iff_toNat_le] at hmin
  rw [UInt8.le_iff_toNat_le, UInt8.le_iff_toNat_le]
  by_cases hd : min.toNat ≤ d.toNat
  · have hindex : d.toNat - min'.toNat - (min.toNat - min'.toNat) = d.toNat - min.toNat := by omega
    rw [List.getElem?_append_right (by rw [List.length_replicate]; omega), List.length_replicate,
      hindex]
    exact and_congr_left fun _ => ⟨fun _ => hd, fun _ => hmin.trans hd⟩
  · constructor
    · rintro ⟨hle, -, h⟩
      rw [List.getElem?_append_left (by rw [List.length_replicate]; omega),
        List.getElem?_replicate] at h
      split at h <;> simp at h
    · rintro ⟨hle, -⟩
      exact absurd hle hd

/-- The wider dense array leads where the narrower one did, and has a slot for the letter. -/
theorem widened_spec {n : NnTrieNode} (h : n.Arrays) {min max : Byte} {nbr : ℕ}
    (hu : n.u = .dense min max nbr) (c : Byte) :
    ∃ max', c ≤ max' ∧ (widened n min max nbr c).u = .dense (Min.min min c) max' (nbr + 1) ∧
      (widened n min max nbr c).child.length = max'.toNat - (Min.min min c).toNat + 1 ∧
      ∀ d, (widened n min max nbr c).after d = n.after d := by
  obtain ⟨hle, hlen, -, -⟩ := (arrays_dense hu).mp h
  have hmin : Min.min min c = if min ≤ c then min else c := rfl
  have hmax : Max.max max c = if max ≤ c then c else max := rfl
  have hle' := hle
  rw [UInt8.le_iff_toNat_le] at hle'
  unfold widened
  by_cases hc : c < min ∨ max < c
  · rw [if_pos hc]
    rcases hc with hlow | hhigh
    · have hnot : ¬min ≤ c := fun hmc => absurd hlow (UInt8.not_lt.mpr hmc)
      have hmc : ¬max ≤ c := fun hmc => hnot (UInt8.le_trans hle hmc)
      have hne : min ≠ c := fun heq => hnot (heq ▸ UInt8.le_refl _)
      have hlow' := hlow
      rw [UInt8.lt_iff_toNat_lt] at hlow'
      simp only [hmin, hmax, if_neg hnot, if_neg hmc, if_pos hne]
      refine ⟨max, UInt8.le_of_lt (UInt8.lt_of_lt_of_le hlow hle), rfl, ?_, fun d => ?_⟩
      · rw [List.length_append, List.length_replicate, hlen]
        omega
      · exact after_dense_left hu (UInt8.le_of_lt hlow) rfl rfl d
    · have hmc : max ≤ c := UInt8.le_of_lt hhigh
      have hle'' : min ≤ c := UInt8.le_trans hle hmc
      have hhigh' := hhigh
      rw [UInt8.lt_iff_toNat_lt] at hhigh'
      simp only [hmin, hmax, if_pos hle'', if_pos hmc]
      refine ⟨c, UInt8.le_refl c, rfl, ?_, fun d => ?_⟩
      · rw [if_neg (fun h => h rfl), List.length_append, List.length_replicate, hlen]
        omega
      · exact after_dense_right hu hlen hle hmc rfl (if_neg (fun h => h rfl)) d
  · rw [if_neg hc]
    rw [not_or, UInt8.not_lt, UInt8.not_lt] at hc
    rw [hmin, if_pos hc.1]
    refine ⟨max, hc.2, rfl, hlen, fun d => Option.ext fun ch => ?_⟩
    rw [after_dense_iff rfl, after_dense_iff hu]

theorem nnNodeNext_dense {n : NnTrieNode} {min max : Byte} {nbr : ℕ} (hu : n.u = .dense min max nbr)
    {c : Byte} (hmin : min ≤ c) (hmax : c ≤ max) :
    nnNodeNext n c = some (c.toNat - min.toNat) := by
  simp only [nnNodeNext, hu]
  refine if_neg ?_
  rw [not_or, UInt8.not_lt, UInt8.not_lt]
  exact ⟨hmin, hmax⟩

/-- The null slot of a letter in a dense array is set, where the letter has been counted in. -/
theorem putNew_spec {n m : NnTrieNode} {min max c : Byte} {nbr : ℕ} (hu : m.u = .dense min max nbr)
    (hlen : m.child.length = max.toNat - min.toNat + 1) (hmin : min ≤ c) (hmax : c ≤ max)
    (hafter : ∀ d, m.after d = n.after d) (hc : n.after c = none)
    (hnbr : n.heads.ncard + 1 = nbr) (hwide : NN_TRIE_SPARSE_MAX < nbr) (new : NnTrieNode × Int) :
    ∃ m', putNew m (c.toNat - min.toNat) new = some (m', new.2) ∧ m'.Arrays ∧
      m'.prefixBytes = m.prefixBytes ∧ m'.refcount = m.refcount ∧ m'.u = m.u ∧
      ∀ d, m'.after d = if d = c then some new.1 else n.after d := by
  have hmin' := hmin
  have hmax' := hmax
  rw [UInt8.le_iff_toNat_le] at hmin' hmax'
  have hnext := nnNodeNext_dense hu hmin hmax
  have hlt : c.toNat - min.toNat < m.child.length := by omega
  have hnull : m.child[c.toNat - min.toNat]? = some none := by
    have h := hafter c
    rw [hc, after, hnext, Option.bind_some, Option.join_eq_none_iff] at h
    rcases h with h | h
    · exact absurd (List.getElem?_eq_none_iff.mp h) (Nat.not_le.mpr hlt)
    · exact h
  have hset : ∀ d, after { m with child := m.child.set (c.toNat - min.toNat) (some new.1) } d
      = if d = c then some new.1 else n.after d := fun d => by
    rw [after_set hnext hlt, hafter]
  have hu' : u { m with child := m.child.set (c.toNat - min.toNat) (some new.1) }
      = .dense min max nbr := hu
  refine ⟨{ m with child := m.child.set (c.toNat - min.toNat) (some new.1) },
    by rw [putNew, hnull], ?_, rfl, rfl, rfl, hset⟩
  have := finite_byte
  refine (arrays_dense hu').mpr ⟨UInt8.le_trans hmin hmax, by rw [List.length_set, hlen], ?_, hwide⟩
  rw [heads_insert hset, Set.ncard_insert_of_notMem (not_mem_heads.mpr hc), hnbr]

/-- A child more: a node that had eight forgets its own subscriptions. -/
theorem grown {n n' : NnTrieNode} (h : n.Built) {c : Byte} (hc : n.after c = none)
    (data : List Byte) (harrays : n'.Arrays) (hp : n'.prefixBytes = n.prefixBytes)
    (hr : n'.refcount = if n.heads.ncard = NN_TRIE_SPARSE_MAX then 0 else n.refcount)
    (hafter : ∀ d, n'.after d = if d = c then some (newNodes data).1 else n.after d) :
    n'.Sound ∧ n'.count = settled NN_TRIE_SPARSE_MAX n.count
      (Function.update n.count (n.prefixBytes ++ c :: data) 1) := by
  obtain ⟨hsound, -, hcount⟩ := newNodes_spec data
  have hkids : n.kids c = 0 := kids_of_none hc
  constructor
  · refine Built.sound ⟨⟨harrays, hp ▸ h.ok.fits, ?_⟩, fun {d ch} hd => ?_⟩ fun hu => ?_
    · rw [hr]
      split
      · exact Nat.two_pow_pos 32
      · exact h.ok.counted
    · rw [hafter] at hd
      split at hd
      next => exact Option.some.inj hd ▸ hsound
      next => exact h.child hd
    · -- a node with a child has a letter in its array
      have hmem : c ∈ n'.heads := mem_heads.mpr ⟨_, (hafter c).trans (if_pos rfl)⟩
      rw [heads_sparse harrays hu] at hmem
      simp at hmem
  · have := finite_byte
    rw [count_of_after hafter hp, hr, count_eq n, countOf_some, hcount, ← h.letters_kids]
    exact (settled_tree_more (by decide) _ _ c _ Nat.one_pos _ hkids).symm

theorem addChild_spec {n : NnTrieNode} (h : n.Built) {c : Byte} (hc : n.after c = none)
    (data : List Byte) :
    ∃ n', addChild n c data = some (n', 1) ∧ n'.Sound ∧ n'.count = settled NN_TRIE_SPARSE_MAX
      n.count (Function.update n.count (n.prefixBytes ++ c :: data) 1) := by
  obtain ⟨-, hret, -⟩ := newNodes_spec data
  have harrays := h.ok.arrays
  have hncard := heads_ncard harrays
  unfold addChild
  cases hu : n.u with
  | sparse children =>
      have hheads := heads_sparse harrays hu
      have hnot : c ∉ children := by
        have h := not_mem_heads.mpr hc
        rwa [hheads] at h
      rw [hu, ChildIndex.width] at hncard
      dsimp only
      by_cases hlt : children.length < NN_TRIE_SPARSE_MAX
      · rw [if_pos hlt, hret]
        have hafter := after_append harrays hu hnot (newNodes data).1
        refine ⟨_, rfl, grown h hc data ?_ rfl ?_ hafter⟩
        · obtain ⟨-, hnodup, hlen, hnone⟩ := (arrays_sparse hu).mp harrays
          refine (arrays_sparse rfl).mpr ⟨?_, ?_, ?_, by simpa using hnone⟩
          · rwa [List.length_append]
          swap
          · rw [List.length_append, List.length_append, hlen]
            rfl
          rw [List.nodup_append_comm]
          exact List.nodup_cons.mpr ⟨hnot, hnodup⟩
        · rw [if_neg (by omega)]
      · rw [if_neg hlt]
        obtain ⟨min, max, hmin, hmax, hu', hlen', hafter⟩ := toDense_spec harrays hu c
        have hfull := ((arrays_sparse hu).mp harrays).1
        obtain ⟨m, hput, hm, hp, hr, -, hset⟩ := putNew_spec hu' hlen' hmin hmax hafter hc
          (by rw [hncard]) (by omega) (newNodes data)
        rw [nnNodeNext_dense hu' hmin hmax, Option.bind_some, hput, hret]
        refine ⟨m, rfl, grown h hc data hm hp ?_ hset⟩
        rw [hr, if_pos (by omega)]
        rfl
  | dense min max nbr =>
      obtain ⟨max', hmax, hu', hlen', hafter⟩ := widened_spec harrays hu c
      rw [hu, ChildIndex.width] at hncard
      obtain ⟨-, -, -, hwide⟩ := (arrays_dense hu).mp harrays
      obtain ⟨m, hput, hm, hp, hr, -, hset⟩ := putNew_spec hu' hlen' (min_le_both min c).2 hmax
        hafter hc (by rw [hncard]) (by omega) (newNodes data)
      dsimp only
      rw [hput, hret]
      have hkeeps : (widened n min max nbr c).prefixBytes = n.prefixBytes ∧
          (widened n min max nbr c).refcount = n.refcount := by
        unfold widened
        split <;> exact ⟨rfl, rfl⟩
      refine ⟨m, rfl, grown h hc data hm (hp.trans hkeeps.1) ?_ hset⟩
      rw [hr, hkeeps.2, if_neg (by omega)]

theorem splitPrefix_spec {n : NnTrieNode} (h : n.Sound) {data : List Byte}
    (hlt : nnNodeCheckPrefix n data < n.prefixBytes.length) :
    ∃ n', splitPrefix n (nnNodeCheckPrefix n data) (data.drop (nnNodeCheckPrefix n data))
        = some (n', 1) ∧ n'.Sound ∧ n'.count = settled NN_TRIE_SPARSE_MAX
          n.count (Function.update n.count data 1) := by
  obtain ⟨a, q, b, e, hp, hdata, hlen, hne⟩ := agreeing_lt hlt
  have hpos : nnNodeCheckPrefix n data = a.length := hlen.symm
  have hfits := h.built.ok.fits
  rw [hp, List.length_append, List.length_cons] at hfits
  have hdrop : n.prefixBytes.drop a.length = q :: b := by rw [hp, List.drop_left]
  have htake : n.prefixBytes.take a.length = a := by rw [hp, List.take_left]
  have hb : b.length ≤ NN_TRIE_PREFIX_MAX := by omega
  have hlower : Sound { n with prefixBytes := b } :=
    Built.sound ⟨⟨h.built.ok.arrays, hb, h.built.ok.counted⟩, h.built.child⟩ h.used
  obtain ⟨ch, hcompact, hch, hchcount⟩ := compact_spec hlower
  have hupper := oneChild_built q hch (Nat.le_trans (Nat.le_add_right _ _) hfits)
  -- split in two, the node counts what it did
  have hsame : (oneChild a q ch).count = n.count := by
    rw [oneChild_count, hchcount, count_eq, count_eq n, tree, tree, ← under_append,
      List.append_assoc, List.singleton_append, ← hp]
    rfl
  rw [hpos, splitPrefix, hdrop, htake, hdata, List.drop_left]
  dsimp only
  rw [hcompact, Option.bind_some]
  cases e with
  | nil =>
      have hone : 0 + 1 < 2 ^ 32 := by decide
      have := finite_byte
      refine ⟨(subscribed (oneChild a q ch)).1, rfl, subscribed_sound hupper hone, ?_⟩
      rw [subscribed_count hone, List.append_nil, ← hsame, count_eq]
      exact (settled_tree_top (by decide) a 0 1 _).symm
  | cons c rest =>
      have hafter : (oneChild a q ch).after c = none := by
        rw [after_oneChild, if_neg fun hcq => hne c rest rfl hcq.symm]
      rw [← hsame]
      exact addChild_spec hupper hafter rest

/-- Another child for a letter that has one. -/
theorem NnTrieNode.Built.set {n : NnTrieNode} (h : n.Built) {c : Byte} {i : ℕ} {ch ch' : NnTrieNode}
    (hc : nnNodeNext n c = some i) (hold : n.after c = some ch) (hch' : ch'.Sound) :
    Sound { n with child := n.child.set i (some ch') } := by
  have hi := nnNodeNext_lt h.ok.arrays hc
  have hset := after_set hc hi (some ch')
  have hheads : heads { n with child := n.child.set i (some ch') } = n.heads := by
    rw [heads_insert hset]
    exact Set.insert_eq_of_mem (mem_heads.mpr ⟨ch, hold⟩)
  refine Built.sound ⟨⟨?_, h.ok.fits, h.ok.counted⟩, fun {d ch''} hd => ?_⟩ fun hu => ?_
  · have harrays := h.ok.arrays
    rcases n.u.sparse_or_dense with ⟨children, hu⟩ | ⟨min, max, nbr, hu⟩
    · obtain ⟨hle, hnodup, hlen, hnone⟩ := (arrays_sparse hu).mp harrays
      refine (arrays_sparse (n := { n with child := n.child.set i (some ch') }) hu).mpr
        ⟨hle, hnodup, List.length_set.trans hlen, fun hmem => ?_⟩
      rcases List.mem_or_eq_of_mem_set hmem with hmem | hmem
      · exact hnone hmem
      · simp at hmem
    · obtain ⟨hle, hlen, hnbr, hwide⟩ := (arrays_dense hu).mp harrays
      exact (arrays_dense (n := { n with child := n.child.set i (some ch') }) hu).mpr
        ⟨hle, List.length_set.trans hlen, hheads ▸ hnbr, hwide⟩
  · rw [hset] at hd
    split at hd
    next => exact Option.some.inj hd ▸ hch'
    next => exact h.child hd
  · have hmem : c ∈ n.heads := mem_heads.mpr ⟨ch, hold⟩
    rw [heads_sparse h.ok.arrays hu] at hmem
    simp at hmem

theorem count_beside {n : NnTrieNode} {x : List Byte} (h : ¬n.prefixBytes <+: x) :
    n.count x = 0 := by
  rw [count_eq, tree, under_eq_zero _ h]

theorem begins_of_count {n : NnTrieNode} {x : List Byte} (h : 0 < n.count x) :
    n.prefixBytes <+: x := by
  by_contra hnot
  rw [count_beside hnot] at h
  exact Nat.lt_irrefl 0 h

theorem count_child (n : NnTrieNode) (c : Byte) (y : List Byte) :
    n.count (n.prefixBytes ++ c :: y) = n.kids c y := by
  rw [count_eq, tree_append, fork_cons]

/-- A pointer of a sound node's array, by its letter. -/
theorem child_of_next {n : NnTrieNode} (h : n.Arrays) {c : Byte} {i : ℕ}
    (hc : nnNodeNext n c = some i) : n.child[i]? = some (n.after c) := by
  have hi := nnNodeNext_lt h hc
  rw [after, hc, Option.bind_some, List.getElem?_eq_getElem hi]
  rfl

theorem after_of_next {n : NnTrieNode} {c : Byte} (hc : nnNodeNext n c = none) :
    n.after c = none := by
  rw [after, hc, Option.bind_none]

/-- A child that has been changed below is put back, and its node counts what it counts. -/
theorem putBack_spec {n ch ch' : NnTrieNode} (h : n.Sound) {c : Byte} {i : ℕ}
    (hnext : nnNodeNext n c = some i) (hc : n.after c = some ch) (hch' : ch'.Sound)
    {rest : List Byte} {v : ℕ}
    (hcount : ch'.count = settled NN_TRIE_SPARSE_MAX ch.count (Function.update ch.count rest v)) :
    NnTrieNode.Sound { n with child := n.child.set i (some ch') } ∧
      NnTrieNode.count { n with child := n.child.set i (some ch') }
        = settled NN_TRIE_SPARSE_MAX n.count
          (Function.update n.count (n.prefixBytes ++ c :: rest) v) := by
  have hset := after_set hnext (nnNodeNext_lt h.built.ok.arrays hnext) (some ch')
  have hkids := kids_of_some hc
  have hold : ∃ y, 0 < n.kids c y := hkids ▸ (h.built.child hc).exists_count
  have hnew : ∃ y, 0 < Function.update (n.kids c) rest v y := by
    rw [hkids]
    obtain ⟨y, hy⟩ := hch'.exists_count
    rw [hcount] at hy
    exact ⟨y, hy.trans_le (settled_le _ _ _ _)⟩
  refine ⟨h.built.set hnext hc hch', ?_⟩
  rw [count_of_after hset rfl, countOf_some, hcount, count_eq n, ← hkids]
  exact (settled_tree_kept _ _ _ _ _ _ _ hold hnew).symm

theorem subscribeAt_spec {n : NnTrieNode} (h : n.Sound) {data : List Byte}
    (hlt : n.count data + 1 < 2 ^ 32) :
    ∃ n', subscribeAt (some n) data = some (n', if n.count data = 0 then 1 else 0) ∧ n'.Sound ∧
      n'.count = settled NN_TRIE_SPARSE_MAX n.count
        (Function.update n.count data (n.count data + 1)) := by
  induction hl : data.length using Nat.strong_induction_on generalizing n data with
  | _ l ih =>
      subst hl
      have := finite_byte
      rw [subscribeAt]
      by_cases hpos : nnNodeCheckPrefix n data < n.prefixBytes.length
      · -- only a part of the prefix matches
        have hzero : n.count data = 0 :=
          count_beside fun hp => hpos.ne (agreeing_eq_length_iff.mpr hp)
        rw [if_pos hpos, hzero, if_pos rfl]
        exact splitPrefix_spec h hpos
      · have hfull : agreeing n.prefixBytes data = n.prefixBytes.length :=
          Nat.le_antisymm (agreeing_le _ _) (Nat.not_lt.mp hpos)
        obtain ⟨e, rfl⟩ := agreeing_eq_length_iff.mp hfull
        have hcheck : nnNodeCheckPrefix n (n.prefixBytes ++ e) = n.prefixBytes.length := hfull
        rw [if_neg hpos]
        split
        next hdrop =>
            rw [hcheck, List.drop_left] at hdrop
            subst hdrop
            rw [List.append_nil, count_self] at hlt ⊢
            refine ⟨(subscribed n).1, ?_, subscribed_sound h.built hlt, ?_⟩
            · rw [← subscribed_snd hlt]
            · rw [subscribed_count hlt, count_eq]
              exact (settled_tree_top (by decide) _ _ _ _).symm
        next c rest hdrop =>
            rw [hcheck, List.drop_left] at hdrop
            subst hdrop
            rw [count_child] at hlt ⊢
            -- a letter that leads nowhere gets a child
            have hadd : n.after c = none → ∃ n', addChild n c rest
                = some (n', if n.kids c rest = 0 then 1 else 0) ∧ n'.Sound ∧
                  n'.count = settled NN_TRIE_SPARSE_MAX n.count
                    (Function.update n.count (n.prefixBytes ++ c :: rest) (n.kids c rest + 1)) := by
              intro hc
              have hzero : n.kids c rest = 0 := by rw [kids_of_none hc, Pi.zero_apply]
              rw [hzero, if_pos rfl]
              exact addChild_spec h.built hc rest
            cases hnext : nnNodeNext n c with
            | none => exact hadd (after_of_next hnext)
            | some i =>
                dsimp only
                rw [child_of_next h.built.ok.arrays hnext]
                cases hc : n.after c with
                | none => exact hadd hc
                | some ch =>
                    rw [kids_of_some hc] at hlt ⊢
                    obtain ⟨ch', hsub, hch', hcount⟩ :=
                      ih rest.length (by simp; omega) (h.built.child hc) hlt rfl
                    dsimp only
                    rw [hsub, Option.map_some]
                    obtain ⟨hsound, hback⟩ := putBack_spec h hnext hc hch' hcount
                    exact ⟨_, rfl, hsound, hback⟩

end NanomsgDemo.Nanomsg

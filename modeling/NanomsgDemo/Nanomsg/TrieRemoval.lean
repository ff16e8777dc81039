import NanomsgDemo.Nanomsg.TrieNodes

/-!
# Strings taken out of the trie

What `nnNodeUnsubscribe` makes of a sound node for a string that is counted. The node may
be gone afterwards, which it is exactly if it counted that string once and nothing else.
-/

namespace NanomsgDemo.Nanomsg

open Net (Byte)
open Branching
open NnTrieNode

/-- A pointer to a sound node, or a null pointer. -/
def SoundAt (o : Option NnTrieNode) : Prop := ∀ n, o = some n → n.Sound

theorem soundAt_none : SoundAt none := fun _ h => by simp at h

theorem soundAt_some {n : NnTrieNode} (h : n.Sound) : SoundAt (some n) := fun _ hn =>
  Option.some.inj hn ▸ h

/-- A node without letters has no words below it. -/
theorem kids_of_sparse_nil {n : NnTrieNode} (h : n.u = .sparse []) (c : Byte) : n.kids c = 0 := by
  rw [kids, after, nnNodeNext, h]
  rfl

theorem unsubscribed_spec {n : NnTrieNode} (h : n.Sound) (hpos : 0 < n.refcount) :
    ∃ o, unsubscribed (some n) = some (o, if n.refcount = 1 then 1 else 0) ∧ SoundAt o ∧
      countOf o = tree n.prefixBytes (n.refcount - 1) n.kids ∧
      (o = none → tree n.prefixBytes (n.refcount - 1) n.kids = 0) := by
  have hhas : nnNodeHasSubscribers n = true := by
    simpa [nnNodeHasSubscribers] using hpos.ne'
  have hok := h.built.ok
  rw [unsubscribed, hhas, if_neg (by simp)]
  dsimp only
  by_cases hone : n.refcount = 1
  · have hzero : n.refcount - 1 = 0 := by omega
    rw [if_neg (by simpa using hzero), if_pos hone, hzero]
    by_cases hu : n.u = .sparse []
    · have hleaf : tree n.prefixBytes 0 n.kids = 0 := tree_zero _ (kids_of_sparse_nil hu)
      rw [if_pos hu]
      exact ⟨none, rfl, soundAt_none, hleaf.symm, fun _ => hleaf⟩
    · have hsound : Sound { n with refcount := 0 } :=
        Built.sound ⟨⟨hok.arrays, hok.fits, Nat.two_pow_pos 32⟩, h.built.child⟩
          fun hu' => absurd hu' hu
      obtain ⟨n', hcompact, hn', hcount⟩ := compact_spec hsound
      rw [if_neg hu, hcompact]
      exact ⟨some n', rfl, soundAt_some hn', by rw [countOf_some, hcount, count_eq]; rfl,
        fun hn => by simp at hn⟩
  · have hne : n.refcount - 1 ≠ 0 := by omega
    rw [if_pos hne, if_neg hone]
    refine ⟨some { n with refcount := n.refcount - 1 }, rfl, soundAt_some ?_, ?_,
      fun hn => by simp at hn⟩
    · exact Built.sound ⟨⟨hok.arrays, hok.fits, (Nat.sub_le _ _).trans_lt hok.counted⟩,
        h.built.child⟩ fun _ => Nat.pos_of_ne_zero hne
    · rw [countOf_some, count_eq]
      rfl

/-! ## A letter without its child -/

theorem heads_erase {n n' : NnTrieNode} {c : Byte}
    (hafter : ∀ d, n'.after d = if d = c then none else n.after d) :
    n'.heads = n.heads \ {c} := by
  ext d
  rw [Set.mem_sdiff, Set.mem_singleton_iff, mem_heads, mem_heads, hafter]
  by_cases hd : d = c
  · simp [hd]
  · simp [hd]

theorem heads_erase_ncard {n n' : NnTrieNode} {c : Byte} (hc : c ∈ n.heads)
    (hafter : ∀ d, n'.after d = if d = c then none else n.after d) :
    n'.heads.ncard + 1 = n.heads.ncard := by
  have := finite_byte
  rw [heads_erase hafter]
  exact Set.ncard_sdiff_singleton_add_one hc

/-- What is left of a node once a letter and its child are gone from its arrays. -/
theorem shrunk {n n' : NnTrieNode} (h : n.Built) {c : Byte}
    (hafter : ∀ d, n'.after d = if d = c then none else n.after d) (harrays : n'.Arrays)
    (hp : n'.prefixBytes = n.prefixBytes) (hr : n'.refcount ≤ n.refcount) :
    n'.Built ∧ n'.count = tree n.prefixBytes n'.refcount (Function.update n.kids c 0) := by
  refine ⟨⟨⟨harrays, hp ▸ h.ok.fits, hr.trans_lt h.ok.counted⟩, fun {d ch} hd => ?_⟩, ?_⟩
  · rw [hafter] at hd
    split at hd
    next => simp at hd
    next => exact h.child hd
  · rw [count_of_after hafter hp, countOf_none]

/-- A letter and its pointer less in a sparse array. -/
theorem after_erase {n : NnTrieNode} (h : n.Arrays) {children : List Byte}
    (hu : n.u = .sparse children) {c : Byte} {i : ℕ} (hi : children[i]? = some c) (d : Byte) :
    after { n with u := .sparse (children.eraseIdx i), child := n.child.eraseIdx i } d
      = if d = c then none else n.after d := by
  obtain ⟨-, hnodup, -, -⟩ := (arrays_sparse hu).mp h
  have hnodup' : (children.eraseIdx i).Nodup := hnodup.sublist (List.eraseIdx_sublist _ _)
  have honly : ∀ j, children[j]? = some c → j = i := fun j hj => by
    obtain ⟨hlt, hget⟩ := List.getElem?_eq_some_iff.mp hj
    obtain ⟨hlt', hget'⟩ := List.getElem?_eq_some_iff.mp hi
    exact hnodup.getElem_inj_iff.mp (hget.trans hget'.symm)
  refine Option.ext fun ch => ?_
  rw [after_sparse_iff rfl hnodup']
  simp only [List.getElem?_eraseIdx]
  by_cases hd : d = c
  · subst hd
    simp only [if_true, reduceCtorEq, iff_false, not_exists, not_and]
    intro j hj
    split at hj
    next hji => exact absurd (honly j hj) (Nat.ne_of_lt hji)
    next hji => exact absurd (honly (j + 1) hj) (by omega)
  · rw [if_neg hd, after_sparse_iff hu hnodup]
    constructor
    · rintro ⟨j, hj, hch⟩
      split at hj
      next hji => exact ⟨j, hj, by rwa [if_pos hji] at hch⟩
      next hji => exact ⟨j + 1, hj, by rwa [if_neg hji] at hch⟩
    · rintro ⟨j, hj, hch⟩
      have hne : j ≠ i := fun h => by
        rw [h, hi, Option.some.injEq] at hj
        exact hd hj.symm
      rcases Nat.lt_or_gt_of_ne hne with hji | hji
      · exact ⟨j, by rwa [if_pos hji], by rwa [if_pos hji]⟩
      · refine ⟨j - 1, ?_, ?_⟩
        · rwa [if_neg (by omega), Nat.sub_add_cancel (by omega)]
        · rwa [if_neg (by omega), Nat.sub_add_cancel (by omega)]

theorem dropSparse_spec {n : NnTrieNode} (h : n.Sound) {children : List Byte}
    (hu : n.u = .sparse children) {c : Byte} {i : ℕ} (hi : children.idxOf? c = some i) :
    ∃ o, dropSparse { n with child := n.child.set i none } children c = some (o, 1) ∧ SoundAt o ∧
      countOf o = tree n.prefixBytes n.refcount (Function.update n.kids c 0) ∧
      (o = none → n.refcount = 0 ∧ ∀ d, d ≠ c → n.kids d = 0) := by
  obtain ⟨hle, hnodup, hlen, hnone⟩ := (arrays_sparse hu).mp h.built.ok.arrays
  obtain ⟨hlt, hget, -⟩ := List.idxOf?_eq_some_iff.mp hi
  have hi' : children[i]? = some c := List.getElem?_eq_some_iff.mpr ⟨hlt, hget⟩
  have hafter := after_erase h.built.ok.arrays hu hi'
  have harrays :
      Arrays { n with u := .sparse (children.eraseIdx i), child := n.child.eraseIdx i } :=
    (arrays_sparse rfl).mpr
      ⟨(List.length_eraseIdx_le _ _).trans hle, hnodup.sublist (List.eraseIdx_sublist _ _),
        by simp only [List.length_eraseIdx, hlen], fun hm => hnone (List.mem_of_mem_eraseIdx hm)⟩
  obtain ⟨hbuilt, hcount⟩ := shrunk h.built hafter harrays rfl le_rfl
  have hhas : nnNodeHasSubscribers
      { n with u := .sparse (children.eraseIdx i), child := n.child.eraseIdx i }
      = nnNodeHasSubscribers n := rfl
  rw [dropSparse, hi]
  simp only [List.eraseIdx_set_eq, hhas]
  by_cases hgone : ChildIndex.sparse (children.eraseIdx i) = .sparse [] ∧
      ¬nnNodeHasSubscribers n = true
  · have hzero : n.refcount = 0 := by simpa [nnNodeHasSubscribers] using hgone.2
    have hother : ∀ d, d ≠ c → n.kids d = 0 := fun d hd => by
      have hnil := kids_of_sparse_nil
        (n := { n with u := .sparse (children.eraseIdx i), child := n.child.eraseIdx i }) hgone.1 d
      rwa [kids, hafter, if_neg hd] at hnil
    rw [if_pos hgone]
    refine ⟨none, rfl, soundAt_none, ?_, fun _ => ⟨hzero, hother⟩⟩
    have hleaf : ∀ d, Function.update n.kids c 0 d = 0 := fun d => by
      by_cases hd : d = c
      · rw [hd, Function.update_self]
      · rw [Function.update_of_ne hd, hother d hd]
    rw [hzero, tree_zero _ hleaf, countOf_none]
  · rw [if_neg hgone]
    have hsound := hbuilt.sound fun hnil => Nat.pos_of_ne_zero fun hzero =>
      hgone ⟨hnil, by simpa [nnNodeHasSubscribers] using hzero⟩
    obtain ⟨n', hcompact, hn', hcount'⟩ := compact_spec hsound
    rw [hcompact]
    exact ⟨some n', rfl, soundAt_some hn', hcount'.trans hcount, fun hn => by simp at hn⟩

theorem takeWhile_isNone {l : List (Option NnTrieNode)} {j : ℕ}
    (hj : j < (l.takeWhile Option.isNone).length) : l[j]? = some none := by
  induction l generalizing j with
  | nil => simp at hj
  | cons o l ih =>
      cases o with
      | none =>
          cases j with
          | zero => rfl
          | succ j => exact ih (by simpa using hj)
      | some ch => simp at hj

theorem lastPresent_le (l : List (Option NnTrieNode)) (i : ℕ) : lastPresent l i ≤ i := by
  induction i with
  | zero => exact Nat.le_refl 0
  | succ i ih =>
      rw [lastPresent]
      split
      · exact Nat.le_refl _
      · exact ih.trans (Nat.le_succ i)

/-- Behind the last one there is no child. -/
theorem le_lastPresent {l : List (Option NnTrieNode)} {i j : ℕ} (hj : j ≤ i) {ch : NnTrieNode}
    (hch : l[j]? = some (some ch)) : j ≤ lastPresent l i := by
  induction i with
  | zero => exact hj
  | succ i ih =>
      rw [lastPresent]
      split
      next => exact hj
      next hnot =>
          rcases Nat.lt_or_eq_of_le hj with hlt | heq
          · exact ih (Nat.le_of_lt_succ hlt)
          · exact absurd (heq ▸ hch) (hnot ch)

/-- Null pointers at the beginning of a dense array are left out. -/
theorem after_drop {n n' : NnTrieNode} {min max : Byte} {nbr nbr' k : ℕ}
    (hu : n.u = .dense min max nbr) (hk : k + min.toNat < 256)
    (hnull : ∀ j ch, n.child[j]? = some (some ch) → k ≤ j)
    (hu' : n'.u = .dense (UInt8.ofNat (k + min.toNat)) max nbr')
    (hchild : n'.child = n.child.drop k) (d : Byte) : n'.after d = n.after d := by
  have hmin : (UInt8.ofNat (k + min.toNat)).toNat = k + min.toNat :=
    UInt8.toNat_ofNat_of_lt' hk
  refine Option.ext fun ch => ?_
  rw [after_dense_iff hu, after_dense_iff hu', hchild, List.getElem?_drop]
  simp only [UInt8.le_iff_toNat_le, hmin]
  constructor
  · rintro ⟨hle, hmax, hch⟩
    have hindex : k + (d.toNat - (k + min.toNat)) = d.toNat - min.toNat := by omega
    exact ⟨by omega, hmax, hindex ▸ hch⟩
  · rintro ⟨hle, hmax, hch⟩
    have hge := hnull _ _ hch
    have hindex : k + (d.toNat - (k + min.toNat)) = d.toNat - min.toNat := by omega
    exact ⟨by omega, hmax, hindex ▸ hch⟩

/-- And so are those at its end. -/
theorem after_take {n n' : NnTrieNode} {min max : Byte} {nbr nbr' k : ℕ}
    (hu : n.u = .dense min max nbr) (hk : k + min.toNat ≤ max.toNat)
    (hnull : ∀ j ch, n.child[j]? = some (some ch) → j ≤ k)
    (hu' : n'.u = .dense min (UInt8.ofNat (k + min.toNat)) nbr')
    (hchild : n'.child = n.child.take (k + 1)) (d : Byte) : n'.after d = n.after d := by
  have hmax : (UInt8.ofNat (k + min.toNat)).toNat = k + min.toNat :=
    UInt8.toNat_ofNat_of_lt' (hk.trans_lt (UInt8.toNat_lt max))
  refine Option.ext fun ch => ?_
  rw [after_dense_iff hu, after_dense_iff hu', hchild, List.getElem?_take]
  simp only [UInt8.le_iff_toNat_le, hmax]
  constructor
  · rintro ⟨hle, hle', hch⟩
    rw [if_pos (by omega)] at hch
    exact ⟨hle, by omega, hch⟩
  · rintro ⟨hle, hle', hch⟩
    have hge := hnull _ _ hch
    rw [if_pos (by omega)]
    exact ⟨hle, by omega, hch⟩

/-- The letters that a dense array has a child for, and the children. -/
theorem mem_present {m : ℕ} {l : List (Option NnTrieNode)} (hm : m + l.length ≤ 256) {d : Byte}
    {ch : NnTrieNode} :
    (d, ch) ∈ present m l ↔ m ≤ d.toNat ∧ l[d.toNat - m]? = some (some ch) := by
  induction l generalizing m with
  | nil => simp [present]
  | cons o l ih =>
      rw [List.length_cons] at hm
      have hrest := ih (m := m + 1) (by omega)
      have htail : (d, ch) ∈ present (m + 1) l ↔
          m < d.toNat ∧ (o :: l)[d.toNat - m]? = some (some ch) := by
        rw [hrest]
        refine and_congr_right fun hlt => ?_
        have hindex : d.toNat - m = (d.toNat - (m + 1)) + 1 := by omega
        rw [hindex, List.getElem?_cons_succ]
      cases o with
      | none =>
          rw [present, htail]
          refine ⟨fun h => ⟨h.1.le, h.2⟩, fun h => ⟨?_, h.2⟩⟩
          refine Nat.lt_of_le_of_ne h.1 fun heq => ?_
          have hch := h.2
          rw [heq, Nat.sub_self, List.getElem?_cons_zero] at hch
          simp at hch
      | some ch' =>
          have hmt : (UInt8.ofNat m).toNat = m := UInt8.toNat_ofNat_of_lt' (show m < 256 by omega)
          rw [present, List.mem_cons, htail, Prod.mk.injEq]
          constructor
          · rintro (⟨rfl, rfl⟩ | h)
            · rw [hmt, Nat.sub_self]
              exact ⟨Nat.le_refl m, rfl⟩
            · exact ⟨h.1.le, h.2⟩
          · intro h
            rcases Nat.lt_or_eq_of_le h.1 with hlt | heq
            · exact Or.inr ⟨hlt, h.2⟩
            · have hch := h.2
              rw [heq, Nat.sub_self, List.getElem?_cons_zero, Option.some.injEq,
                Option.some.injEq] at hch
              refine Or.inl ⟨UInt8.toNat_inj.mp ?_, hch.symm⟩
              rw [hmt, heq]

theorem nodup_present {m : ℕ} {l : List (Option NnTrieNode)} (hm : m + l.length ≤ 256) :
    ((present m l).map Prod.fst).Nodup := by
  induction l generalizing m with
  | nil => exact List.nodup_nil
  | cons o l ih =>
      rw [List.length_cons] at hm
      cases o with
      | none => exact ih (by omega)
      | some ch =>
          have hmt : (UInt8.ofNat m).toNat = m := UInt8.toNat_ofNat_of_lt' (show m < 256 by omega)
          rw [present, List.map_cons, List.nodup_cons]
          refine ⟨fun hmem => ?_, ih (by omega)⟩
          obtain ⟨p, hp, heq⟩ := List.mem_map.mp hmem
          have hlt := ((mem_present (by omega)).mp (show (p.1, p.2) ∈ _ from hp)).1
          rw [heq] at hlt
          dsimp only at hlt
          omega

/-- What a dense array leads to, as a list. -/
theorem mem_present_iff {m : NnTrieNode} {min max : Byte} {nbr : ℕ} (hu : m.u = .dense min max nbr)
    (hlen : m.child.length = max.toNat - min.toNat + 1) (hle : min ≤ max) {d : Byte}
    {ch : NnTrieNode} : (d, ch) ∈ present min.toNat m.child ↔ m.after d = some ch := by
  rw [UInt8.le_iff_toNat_le] at hle
  have hmax := UInt8.toNat_lt max
  rw [mem_present (by omega), after_dense_iff hu, UInt8.le_iff_toNat_le, UInt8.le_iff_toNat_le]
  refine and_congr_right fun hmin => ⟨fun hch => ⟨?_, hch⟩, fun h => h.2⟩
  obtain ⟨hlt, -⟩ := List.getElem?_eq_some_iff.mp hch
  omega

/-- The children of a dense array, in a sparse one. -/
theorem after_present {m : NnTrieNode} {min max : Byte} {nbr : ℕ} (hu : m.u = .dense min max nbr)
    (hlen : m.child.length = max.toNat - min.toNat + 1) (hle : min ≤ max)
    (hnodup : ((present min.toNat m.child).map Prod.fst).Nodup) (r : ℕ) (p : List Byte)
    (d : Byte) :
    after { refcount := r
            prefixBytes := p
            u := .sparse ((present min.toNat m.child).map Prod.fst)
            child := (present min.toNat m.child).map (some ·.2) } d = m.after d := by
  refine Option.ext fun ch => ?_
  rw [after_sparse_iff rfl hnodup, ← mem_present_iff hu hlen hle, List.mem_iff_getElem?]
  refine exists_congr fun i => ?_
  rw [List.getElem?_map, List.getElem?_map]
  cases (present min.toNat m.child)[i]? with
  | none => simp
  | some q => simp [Prod.ext_iff]

theorem length_present {m : NnTrieNode} {min max : Byte} {nbr : ℕ} (hu : m.u = .dense min max nbr)
    (hlen : m.child.length = max.toNat - min.toNat + 1) (hle : min ≤ max)
    (hnodup : ((present min.toNat m.child).map Prod.fst).Nodup) :
    (present min.toNat m.child).length = m.heads.ncard := by
  have hheads : m.heads = (((present min.toNat m.child).map Prod.fst).toFinset : Set Byte) := by
    ext d
    rw [mem_heads, Finset.mem_coe, List.mem_toFinset, List.mem_map]
    constructor
    · rintro ⟨ch, hch⟩
      exact ⟨(d, ch), (mem_present_iff hu hlen hle).mpr hch, rfl⟩
    · rintro ⟨q, hq, rfl⟩
      exact ⟨q.2, (mem_present_iff hu hlen hle).mp hq⟩
  rw [hheads, Set.ncard_coe_finset, List.toFinset_card_of_nodup hnodup, List.length_map]

/-- A letter that a dense array still leads from. -/
theorem exists_slot {m : NnTrieNode} {min max : Byte} {nbr : ℕ} (hu : m.u = .dense min max nbr)
    (hmany : 0 < m.heads.ncard) :
    ∃ (d : Byte) (ch : NnTrieNode), min.toNat ≤ d.toNat ∧ d.toNat ≤ max.toNat ∧
      m.child[d.toNat - min.toNat]? = some (some ch) := by
  obtain ⟨d, hd⟩ := Set.nonempty_of_ncard_ne_zero hmany.ne'
  obtain ⟨ch, hch⟩ := mem_heads.mp hd
  obtain ⟨hmin, hmax, hslot⟩ := (after_dense_iff hu).mp hch
  exact ⟨d, ch, UInt8.le_iff_toNat_le.mp hmin, UInt8.le_iff_toNat_le.mp hmax, hslot⟩

/-- The array trimmed at its left side. -/
theorem trimLeft_spec {m : NnTrieNode} {min max : Byte} {nbr nbr' k : ℕ}
    (hu : m.u = .dense min max nbr) (hlen : m.child.length = max.toNat - min.toNat + 1)
    (hmany : NN_TRIE_SPARSE_MAX < m.heads.ncard) (hnbr : m.heads.ncard = nbr')
    (hk : k = (m.child.takeWhile Option.isNone).length) :
    Arrays { m with u := .dense (UInt8.ofNat (k + min.toNat)) max nbr', child := m.child.drop k } ∧
      ∀ d, after { m with
        u := .dense (UInt8.ofNat (k + min.toNat)) max nbr'
        child := m.child.drop k } d = m.after d := by
  have hge : ∀ j ch, m.child[j]? = some (some ch) → k ≤ j := fun j ch hj => by
    by_contra hlt
    have hnull := takeWhile_isNone (hk ▸ Nat.not_le.mp hlt)
    rw [hj] at hnull
    simp at hnull
  obtain ⟨d, ch, hmin, hmax, hslot⟩ := exists_slot hu ((Nat.zero_le _).trans_lt hmany)
  have hd := UInt8.toNat_lt d
  have hkd := hge _ _ hslot
  have hk' : k + min.toNat < 256 := by omega
  have hmin' : (UInt8.ofNat (k + min.toNat)).toNat = k + min.toNat :=
    UInt8.toNat_ofNat_of_lt' hk'
  have hsame : ∀ d, after { m with
      u := .dense (UInt8.ofNat (k + min.toNat)) max nbr'
      child := m.child.drop k } d = m.after d := fun d => after_drop hu hk' hge rfl rfl d
  refine ⟨(arrays_dense rfl).mpr ⟨?_, ?_, ?_, hnbr ▸ hmany⟩, hsame⟩
  · rw [UInt8.le_iff_toNat_le, hmin']
    omega
  · rw [List.length_drop, hmin']
    omega
  · rw [heads_congr hsame, hnbr]

/-- The array trimmed at its right side. -/
theorem trimRight_spec {m : NnTrieNode} {min max : Byte} {nbr nbr' k : ℕ}
    (hu : m.u = .dense min max nbr) (hlen : m.child.length = max.toNat - min.toNat + 1)
    (hle : min ≤ max) (hmany : NN_TRIE_SPARSE_MAX < m.heads.ncard) (hnbr : m.heads.ncard = nbr')
    (hk : k = lastPresent m.child (max.toNat - min.toNat)) :
    Arrays { m with
      u := .dense min (UInt8.ofNat (k + min.toNat)) nbr', child := m.child.take (k + 1) } ∧
      ∀ d, after { m with
        u := .dense min (UInt8.ofNat (k + min.toNat)) nbr'
        child := m.child.take (k + 1) } d = m.after d := by
  rw [UInt8.le_iff_toNat_le] at hle
  have hle' : k ≤ max.toNat - min.toNat := hk ▸ lastPresent_le _ _
  have hge : ∀ j ch, m.child[j]? = some (some ch) → j ≤ k := fun j ch hj => by
    obtain ⟨hlt, -⟩ := List.getElem?_eq_some_iff.mp hj
    exact hk ▸ le_lastPresent (by omega) hj
  have hk' : k + min.toNat ≤ max.toNat := by omega
  have hmax' : (UInt8.ofNat (k + min.toNat)).toNat = k + min.toNat :=
    UInt8.toNat_ofNat_of_lt' (hk'.trans_lt (UInt8.toNat_lt max))
  have hsame : ∀ d, after { m with
      u := .dense min (UInt8.ofNat (k + min.toNat)) nbr'
      child := m.child.take (k + 1) } d = m.after d := fun d => after_take hu hk' hge rfl rfl d
  refine ⟨(arrays_dense rfl).mpr ⟨?_, ?_, ?_, hnbr ▸ hmany⟩, hsame⟩
  · rw [UInt8.le_iff_toNat_le, hmax']
    omega
  · rw [List.length_take, hmax', hlen]
    omega
  · rw [heads_congr hsame, hnbr]

/-- A node that leads where another does once its letter is gone. -/
theorem shrunk_to {n m n' : NnTrieNode} (h : n.Sound) {c : Byte} {r : ℕ}
    (hafter : ∀ d, m.after d = if d = c then none else n.after d)
    (hsame : ∀ d, n'.after d = m.after d) (harrays : n'.Arrays)
    (hp : n'.prefixBytes = n.prefixBytes) (hr : n'.refcount = r) (hless : r ≤ n.refcount)
    (hne : n'.u ≠ .sparse []) :
    n'.Sound ∧ n'.count = tree n.prefixBytes r (Function.update n.kids c 0) := by
  obtain ⟨hbuilt, hcount⟩ :=
    shrunk h.built (fun d => (hsame d).trans (hafter d)) harrays hp (hr ▸ hless)
  exact ⟨hbuilt.sound fun hnil => absurd hnil hne, hr ▸ hcount⟩

theorem dropDense_spec {n m : NnTrieNode} (h : n.Sound) {min max : Byte} {nbr : ℕ}
    (hu : m.u = .dense min max nbr) (hlen : m.child.length = max.toNat - min.toNat + 1)
    (hle : min ≤ max) (hwide : NN_TRIE_SPARSE_MAX < nbr) {c : Byte}
    (hafter : ∀ d, m.after d = if d = c then none else n.after d)
    (hncard : m.heads.ncard + 1 = nbr) (hp : m.prefixBytes = n.prefixBytes)
    (hr : m.refcount = n.refcount) :
    ∃ n', dropDense m min max nbr c = some (some n', 1) ∧
      n'.Sound ∧ n'.count = tree n.prefixBytes
        (if nbr = NN_TRIE_SPARSE_MAX + 1 then 0 else n.refcount) (Function.update n.kids c 0) := by
  unfold dropDense
  by_cases hmany : NN_TRIE_SPARSE_MAX + 1 < nbr
  · have hnbr : m.heads.ncard = nbr - 1 := by omega
    have hleft : NN_TRIE_SPARSE_MAX < m.heads.ncard := by omega
    rw [if_pos hmany, if_neg hmany.ne']
    by_cases hcmin : c = min
    · obtain ⟨harrays, hsame⟩ := trimLeft_spec hu hlen hleft hnbr rfl
      rw [if_pos hcmin]
      exact ⟨_, rfl, shrunk_to h hafter hsame harrays hp hr le_rfl (by simp)⟩
    · rw [if_neg hcmin]
      by_cases hcmax : c = max
      · obtain ⟨harrays, hsame⟩ := trimRight_spec hu hlen hle hleft hnbr rfl
        rw [if_pos hcmax]
        exact ⟨_, rfl, shrunk_to h hafter hsame harrays hp hr le_rfl (by simp)⟩
      · have hsame : ∀ d, after { m with u := .dense min max (nbr - 1) } d = m.after d := fun d =>
          Option.ext fun ch => by rw [after_dense_iff rfl, after_dense_iff hu]
        rw [if_neg hcmax]
        exact ⟨_, rfl, shrunk_to h hafter hsame
          ((arrays_dense rfl).mpr ⟨hle, hlen, by rw [heads_congr hsame, hnbr], by omega⟩)
          hp hr le_rfl (by simp)⟩
  · -- eight children are left, for a sparse array
    have hm : min.toNat + m.child.length ≤ 256 := by
      have hmax := UInt8.toNat_lt max
      rw [UInt8.le_iff_toNat_le] at hle
      omega
    have hnodup := nodup_present hm
    have hlength := length_present hu hlen hle hnodup
    have hsame := after_present hu hlen hle hnodup 0 m.prefixBytes
    rw [if_neg hmany, if_pos (by omega), if_pos (by omega)]
    refine ⟨_, rfl, shrunk_to h hafter hsame ((arrays_sparse rfl).mpr ⟨?_, hnodup, ?_, ?_⟩)
      hp rfl (Nat.zero_le _) fun hnil => ?_⟩
    · rw [List.length_map]
      omega
    · rw [List.length_map, List.length_map]
    · simp
    · rw [ChildIndex.sparse.injEq, List.map_eq_nil_iff] at hnil
      rw [hnil, List.length_nil] at hlength
      rw [NN_TRIE_SPARSE_MAX] at hwide
      omega

/-- The pointer to a child has become null, and the letter is taken out. -/
theorem dropChild_spec {n : NnTrieNode} (h : n.Sound) {c : Byte} {i : ℕ} {ch : NnTrieNode}
    (hnext : nnNodeNext n c = some i) (hc : n.after c = some ch) :
    ∃ o, dropChild { n with child := n.child.set i none } c = some (o, 1) ∧ SoundAt o ∧
      countOf o = tree n.prefixBytes
        (if n.heads.ncard = NN_TRIE_SPARSE_MAX + 1 then 0 else n.refcount)
        (Function.update n.kids c 0) ∧
      (o = none → n.refcount = 0 ∧ ∀ d, d ≠ c → n.kids d = 0) := by
  have hwidth := heads_ncard h.built.ok.arrays
  unfold dropChild
  rcases n.u.sparse_or_dense with ⟨children, hu⟩ | ⟨min, max, nbr, hu⟩
  · have hle := ((arrays_sparse hu).mp h.built.ok.arrays).1
    have hi : children.idxOf? c = some i := by rwa [nnNodeNext, hu] at hnext
    rw [hu, ChildIndex.width] at hwidth
    rw [if_neg (by omega)]
    simp only [hu]
    have hdrop := dropSparse_spec h hu hi
    rwa [hu] at hdrop
  · obtain ⟨hle, hlen, hnbr, hwide⟩ := (arrays_dense hu).mp h.built.ok.arrays
    have hafter := after_set hnext (nnNodeNext_lt h.built.ok.arrays hnext) none
    have hncard := heads_erase_ncard (mem_heads.mpr ⟨ch, hc⟩) hafter
    obtain ⟨n', hdrop, hn', hcount⟩ :=
      dropDense_spec h (m := { n with child := n.child.set i none })
      hu (List.length_set.trans hlen) hle hwide hafter (hncard.trans hnbr) rfl rfl
    rw [hnbr]
    simp only [hu] at hdrop ⊢
    exact ⟨some n', hdrop, soundAt_some hn', hcount, fun hn => by simp at hn⟩

/-! ## The walk -/

/-- What is said of a node from which a string has been unsubscribed. -/
def Unsubscribes (n : NnTrieNode) (data : List Byte) (r : Option (Option NnTrieNode × Int)) :
    Prop :=
  ∃ o, r = some (o, if n.count data = 1 then 1 else 0) ∧ SoundAt o ∧
    countOf o = settled NN_TRIE_SPARSE_MAX n.count
      (Function.update n.count data (n.count data - 1)) ∧
    (o = none → Function.update n.count data (n.count data - 1) = 0)

theorem unsubscribed_here {n : NnTrieNode} (h : n.Sound) (hpos : 0 < n.refcount) :
    Unsubscribes n n.prefixBytes (unsubscribed (some n)) := by
  have := finite_byte
  obtain ⟨o, hdone, hsound, hcount, hgone⟩ := unsubscribed_spec h hpos
  have hupdate := update_tree_self n.prefixBytes n.refcount (n.refcount - 1) n.kids
  have htop := settled_tree_top (k := NN_TRIE_SPARSE_MAX) (by decide) n.prefixBytes n.refcount
    (n.refcount - 1) n.kids
  rw [← count_eq] at hupdate htop
  rw [Unsubscribes, count_self]
  exact ⟨o, hdone, hsound, hcount.trans htop.symm, fun ho => hupdate.trans (hgone ho)⟩

/-- The child is still there, and is put back. -/
theorem unsubscribed_kept {n ch ch' : NnTrieNode} (h : n.Sound) {c : Byte} {i : ℕ}
    (hnext : nnNodeNext n c = some i) (hc : n.after c = some ch) {rest : List Byte}
    (hch' : ch'.Sound) (hcount : ch'.count = settled NN_TRIE_SPARSE_MAX ch.count
      (Function.update ch.count rest (ch.count rest - 1))) :
    Unsubscribes n (n.prefixBytes ++ c :: rest)
      (some (some { n with child := n.child.set i (some ch') },
        if ch.count rest = 1 then 1 else 0)) := by
  obtain ⟨hsound, hback⟩ := putBack_spec h hnext hc hch' hcount
  rw [Unsubscribes, count_child, kids_of_some hc]
  exact ⟨_, rfl, soundAt_some hsound, hback, fun ho => by simp at ho⟩

/-- Nothing is left below the letter, and the child is taken out. -/
theorem unsubscribed_gone {n ch : NnTrieNode} (h : n.Sound) {c : Byte} {i : ℕ}
    (hnext : nnNodeNext n c = some i) (hc : n.after c = some ch) {rest : List Byte}
    (hone : ch.count rest = 1)
    (hempty : Function.update ch.count rest (ch.count rest - 1) = 0) :
    Unsubscribes n (n.prefixBytes ++ c :: rest)
      (dropChild { n with child := n.child.set i none } c) := by
  have := finite_byte
  have hkids := kids_of_some hc
  have hold : ∃ y, 0 < n.kids c y := hkids ▸ (h.built.child hc).exists_count
  obtain ⟨o, hdrop, ho, hcount, hgone⟩ := dropChild_spec h hnext hc
  rw [← hkids] at hone hempty
  rw [hdrop, Unsubscribes, count_child, if_pos hone]
  refine ⟨o, rfl, ho, hcount.trans ?_, fun hnone => ?_⟩
  · rw [← h.built.letters_kids, count_eq n]
    exact (settled_tree_gone _ _ _ _ _ _ _ hold hempty).symm
  · obtain ⟨hzero, hother⟩ := hgone hnone
    rw [count_eq n, update_tree_below, hempty, hzero]
    refine tree_zero _ fun d => ?_
    by_cases hd : d = c
    · rw [hd, Function.update_self]
    · rw [Function.update_of_ne hd, hother d hd]

/-- A counted string is unsubscribed once: a node at eight children again forgets its own. -/
theorem nnNodeUnsubscribe_spec {n : NnTrieNode} (h : n.Sound) {data : List Byte}
    (hpos : 0 < n.count data) : Unsubscribes n data (nnNodeUnsubscribe (some n) data) := by
  induction hl : data.length using Nat.strong_induction_on generalizing n data with
  | _ l ih =>
      subst hl
      obtain ⟨e, rfl⟩ := begins_of_count hpos
      have hfull : nnNodeCheckPrefix n (n.prefixBytes ++ e) = n.prefixBytes.length :=
        agreeing_eq_length_iff.mpr (List.prefix_append _ _)
      rw [nnNodeUnsubscribe]
      by_cases hdata : n.prefixBytes ++ e = []
      · obtain ⟨hnil, rfl⟩ := List.append_eq_nil_iff.mp hdata
        rw [if_pos hdata]
        rw [List.append_nil] at hpos ⊢
        rw [count_self] at hpos
        exact unsubscribed_here h hpos
      · rw [if_neg hdata, if_neg (not_not.mpr hfull)]
        split
        next hdrop =>
            rw [List.drop_left] at hdrop
            subst hdrop
            rw [List.append_nil] at hpos ⊢
            rw [count_self] at hpos
            exact unsubscribed_here h hpos
        next c rest hdrop =>
            rw [List.drop_left] at hdrop
            subst hdrop
            rw [count_child] at hpos
            cases hnext : nnNodeNext n c with
            | none => simp [kids_of_none (after_of_next hnext)] at hpos
            | some i =>
                dsimp only
                rw [child_of_next h.built.ok.arrays hnext, Option.bind_some]
                cases hc : n.after c with
                | none => simp [kids_of_none hc] at hpos
                | some ch =>
                    rw [kids_of_some hc] at hpos
                    obtain ⟨o, hsub, hsound, hcount, hgone⟩ :=
                      ih rest.length (by simp; omega) (h.built.child hc) hpos rfl
                    rw [hsub, Option.bind_some]
                    dsimp only
                    cases o with
                    | some ch' =>
                        have hkept := unsubscribed_kept h hnext hc (hsound ch' rfl) hcount
                        rw [if_pos (show (some ch').isSome = true from rfl)]
                        by_cases hone : ch.count rest = 1
                        · rw [if_pos hone] at hkept ⊢
                          rw [if_neg (by decide)]
                          exact hkept
                        · rw [if_neg hone] at hkept ⊢
                          rw [if_pos rfl]
                          exact hkept
                    | none =>
                        have hempty := hgone rfl
                        have hone : ch.count rest = 1 := by
                          have hrest := congrFun hempty rest
                          rw [Function.update_self, Pi.zero_apply] at hrest
                          omega
                        rw [if_pos hone, if_neg (by decide), if_neg (by simp)]
                        exact unsubscribed_gone h hnext hc hone hempty

end NanomsgDemo.Nanomsg

import NanomsgDemo.Lib.Runs
import NanomsgDemo.Nanomsg.TrieRemoval

/-!
# What a SUB socket is subscribed to

The trie against a list of strings. `SubCall.remember` is what the code makes of the list
in one call: the string is added, or taken out once, and then `settle` drops the strings
that have come to have a ninth letter behind them, or no longer have one, since a node
that turns from a sparse array to a dense one or back starts with no subscriptions.

In a run that unsubscribes only what is counted, the trie counts that list, and no
assertion fails. It counts what its user has asked for exactly as long as no subscribed
string passes from eight letters to nine or back.
-/

namespace NanomsgDemo.Nanomsg

open Net (Byte)
open Branching
open NnTrieNode

/-! ## Matching -/

/-- The string is the whole text of a node. -/
inductive TextOf : NnTrieNode → List Byte → Prop where
  | here (n : NnTrieNode) : TextOf n n.prefixBytes
  | child {n ch : NnTrieNode} {c : Byte} {y : List Byte} (hc : n.after c = some ch)
      (hy : TextOf ch y) : TextOf n (n.prefixBytes ++ c :: y)

/-- A string that is counted is a beginning of the data. -/
def Covers (f : List Byte → ℕ) (data : List Byte) : Prop := ∃ p, p <+: data ∧ 0 < f p

/-- A text that nobody subscribes to goes on. -/
theorem TextOf.goes_on {n : NnTrieNode} (h : n.Sound) {data : List Byte} (ht : TextOf n data)
    (hzero : n.count data = 0) : ∃ c y, 0 < n.count (data ++ c :: y) := by
  induction ht with
  | here n =>
      rw [count_self] at hzero
      have hne : n.u ≠ .sparse [] := fun hu => (h.used hu).ne' hzero
      obtain ⟨y, hy⟩ := h.exists_count
      obtain ⟨z, rfl⟩ := begins_of_count hy
      cases z with
      | nil =>
          rw [List.append_nil, count_self, hzero] at hy
          exact absurd hy (Nat.lt_irrefl 0)
      | cons c z => exact ⟨c, z, hy⟩
  | @child n ch c y hc _ ih =>
      have hkids : n.kids c = ch.count := by rw [kids, hc]; rfl
      rw [count_child, hkids] at hzero
      obtain ⟨d, z, hz⟩ := ih (h.built.child hc) hzero
      refine ⟨d, z, ?_⟩
      rw [List.append_assoc, List.cons_append, count_child, hkids]
      exact hz

theorem textOf_child {n : NnTrieNode} {c : Byte} {y : List Byte} :
    TextOf n (n.prefixBytes ++ c :: y) ↔ ∃ ch, n.after c = some ch ∧ TextOf ch y := by
  constructor
  · intro h
    generalize hx : n.prefixBytes ++ c :: y = x at h
    cases h with
    | here => simp at hx
    | child hc hy =>
        rw [List.append_cancel_left_eq, List.cons.injEq] at hx
        obtain ⟨rfl, rfl⟩ := hx
        exact ⟨_, hc, hy⟩
  · rintro ⟨ch, hc, hy⟩
    exact TextOf.child hc hy

theorem covers_child {n : NnTrieNode} (hzero : n.refcount = 0) (c : Byte) (y : List Byte) :
    Covers n.count (n.prefixBytes ++ c :: y) ↔ Covers (n.kids c) y := by
  constructor
  · rintro ⟨p, hp, hpos⟩
    obtain ⟨z, rfl⟩ := begins_of_count hpos
    cases z with
    | nil =>
        rw [List.append_nil, count_self, hzero] at hpos
        exact absurd hpos (Nat.lt_irrefl 0)
    | cons d z =>
        rw [List.prefix_append_right_inj, List.cons_prefix_cons] at hp
        obtain ⟨rfl, hz⟩ := hp
        exact ⟨z, hz, by rwa [count_child] at hpos⟩
  · rintro ⟨z, hz, hpos⟩
    refine ⟨n.prefixBytes ++ c :: z, ?_, by rwa [count_child]⟩
    rw [List.prefix_append_right_inj, List.cons_prefix_cons]
    exact ⟨rfl, hz⟩

theorem TextOf.begins {n : NnTrieNode} {data : List Byte} (h : TextOf n data) :
    n.prefixBytes <+: data := by
  cases h with
  | here => exact List.prefix_rfl
  | child => exact List.prefix_append _ _

theorem Covers.begins {n : NnTrieNode} {data : List Byte} (h : Covers n.count data) :
    n.prefixBytes <+: data := by
  obtain ⟨p, hp, hpos⟩ := h
  exact (begins_of_count hpos).trans hp

theorem covers_self {n : NnTrieNode} (e : List Byte) (hpos : 0 < n.refcount) :
    Covers n.count (n.prefixBytes ++ e) :=
  ⟨n.prefixBytes, List.prefix_append _ _, by rwa [count_self]⟩

theorem not_covers_self {n : NnTrieNode} (hzero : n.refcount = 0) :
    ¬Covers n.count n.prefixBytes := by
  rintro ⟨p, hp, hpos⟩
  rw [hp.eq_of_length_le (begins_of_count hpos).length_le, count_self, hzero] at hpos
  exact Nat.lt_irrefl 0 hpos

theorem not_covers_zero (data : List Byte) : ¬Covers 0 data := by
  rintro ⟨p, -, hpos⟩
  exact Nat.lt_irrefl 0 hpos

/-- The walk finds what covers the data, and looks behind them exactly at the text of a node
that nothing covers. -/
theorem matchAt_spec {n : NnTrieNode} (h : n.Sound) (data : List Byte) :
    (matchAt (some n) data = some true ↔ Covers n.count data) ∧
      (matchAt (some n) data = none ↔ TextOf n data ∧ ¬Covers n.count data) := by
  induction hl : data.length using Nat.strong_induction_on generalizing n data with
  | _ l ih =>
      subst hl
      rw [matchAt]
      by_cases hp : n.prefixBytes <+: data
      swap
      · have hcheck : nnNodeCheckPrefix n data ≠ n.prefixBytes.length := fun heq =>
          hp (agreeing_eq_length_iff.mp heq)
        have hnot : ¬Covers n.count data := fun hcovers => hp hcovers.begins
        have htext : ¬TextOf n data := fun ht => hp ht.begins
        rw [if_pos hcheck]
        simp [hnot, htext]
      · obtain ⟨e, rfl⟩ := hp
        have hcheck : nnNodeCheckPrefix n (n.prefixBytes ++ e) = n.prefixBytes.length :=
          agreeing_eq_length_iff.mpr (List.prefix_append _ _)
        rw [if_neg (not_not.mpr hcheck)]
        by_cases hhas : nnNodeHasSubscribers n = true
        · have hpos : 0 < n.refcount :=
            Nat.pos_of_ne_zero (by simpa [nnNodeHasSubscribers] using hhas)
          rw [if_pos hhas]
          simp [covers_self e hpos]
        · have hzero : n.refcount = 0 := by simpa [nnNodeHasSubscribers] using hhas
          rw [if_neg hhas]
          split
          next hdrop =>
              rw [List.drop_left] at hdrop
              subst hdrop
              rw [List.append_nil]
              simp [not_covers_self hzero, TextOf.here n]
          next c rest hdrop =>
              rw [List.drop_left] at hdrop
              subst hdrop
              rw [covers_child hzero, textOf_child]
              cases hnext : nnNodeNext n c with
              | none =>
                  have hc := after_of_next hnext
                  simp [hc, kids_of_none hc, not_covers_zero]
              | some i =>
                  dsimp only
                  rw [child_of_next h.built.ok.arrays hnext, Option.bind_some]
                  cases hc : n.after c with
                  | none =>
                      rw [matchAt]
                      simp [kids_of_none hc, not_covers_zero]
                  | some ch =>
                      obtain ⟨htrue, hnone⟩ :=
                        ih rest.length (by simp; omega) (h.built.child hc) rest rfl
                      rw [kids_of_some hc, htrue, hnone]
                      simp

/-! ## One call -/

inductive SubCall where
  | subscribe (data : List Byte)
  | unsubscribe (data : List Byte)
  deriving DecidableEq

/-- How often the trie counts a string. -/
def NnTrie.count (t : NnTrie) : List Byte → ℕ := countOf t.root

def NnTrie.call (t : NnTrie) : SubCall → Option (NnTrie × Int)
  | .subscribe data => nnTrieSubscribe t data
  | .unsubscribe data => nnTrieUnsubscribe t data

namespace SubCall

/-- What the call asks for. -/
def asked (subs : List (List Byte)) : SubCall → List (List Byte)
  | .subscribe data => data :: subs
  | .unsubscribe data => subs.erase data

/-- What the code makes of it. -/
def remember (subs : List (List Byte)) (c : SubCall) : List (List Byte) :=
  settle NN_TRIE_SPARSE_MAX subs (c.asked subs)

/-- Only what is there is unsubscribed, and no string is there as often as 32 bits count. -/
def Orderly (subs : List (List Byte)) : SubCall → Prop
  | .subscribe data => subs.count data + 1 < 2 ^ 32
  | .unsubscribe data => data ∈ subs

instance (subs : List (List Byte)) : (c : SubCall) → Decidable (c.Orderly subs)
  | .subscribe data => inferInstanceAs (Decidable (subs.count data + 1 < 2 ^ 32))
  | .unsubscribe data => inferInstanceAs (Decidable (data ∈ subs))

/-- `trie.h` on what is returned: 1 for the first subscription to a string and for the last one. -/
def answer (subs : List (List Byte)) : SubCall → Int
  | .subscribe data => if data ∈ subs then 0 else 1
  | .unsubscribe data => if subs.count data = 1 then 1 else 0

/-- Every string that is then subscribed to has at most eight letters behind it before and
after the call, or more than eight both times. -/
def Keeps (subs : List (List Byte)) (c : SubCall) : Prop :=
  ∀ x ∈ c.asked subs, NN_TRIE_SPARSE_MAX < (nexts subs x).length ↔
    NN_TRIE_SPARSE_MAX < (nexts (c.asked subs) x).length

end SubCall

open SubCall

/-- The trie is sound and counts the strings of the list. -/
def NnTrie.Holds (t : NnTrie) (subs : List (List Byte)) : Prop :=
  SoundAt t.root ∧ t.count = fun x => subs.count x

theorem nnTrieInit_holds : nnTrieInit.Holds [] := ⟨soundAt_none, rfl⟩

theorem count_cons_eq (subs : List (List Byte)) (data : List Byte) :
    (fun x => (data :: subs).count x)
      = Function.update (fun x => subs.count x) data (subs.count data + 1) := by
  funext x
  by_cases hx : x = data
  · rw [hx, Function.update_self, List.count_cons_self]
  · rw [Function.update_of_ne hx, List.count_cons_of_ne fun h => hx h.symm]

theorem count_erase_eq (subs : List (List Byte)) (data : List Byte) :
    (fun x => (subs.erase data).count x)
      = Function.update (fun x => subs.count x) data (subs.count data - 1) := by
  funext x
  by_cases hx : x = data
  · rw [hx, Function.update_self, List.count_erase_self]
  · rw [Function.update_of_ne hx, List.count_erase_of_ne hx]

theorem nnTrieSubscribe_spec {t : NnTrie} (h : SoundAt t.root) {data : List Byte}
    (hlt : t.count data + 1 < 2 ^ 32) :
    ∃ t', nnTrieSubscribe t data = some (t', if t.count data = 0 then 1 else 0) ∧
      SoundAt t'.root ∧ t'.count = settled NN_TRIE_SPARSE_MAX t.count
        (Function.update t.count data (t.count data + 1)) := by
  rw [nnTrieSubscribe]
  unfold NnTrie.count at hlt ⊢
  cases hroot : t.root with
  | none =>
      have := finite_byte
      obtain ⟨hnew, hret, hcount⟩ := newNodes_spec data
      refine ⟨{ root := some (newNodes data).1 }, ?_, soundAt_some hnew, ?_⟩
      · rw [subscribeAt, Option.map_some, hret]
        rfl
      · refine hcount.trans (settled_update_of_lt fun x d y _ => ?_).symm
        rw [branches_eq_empty fun _ _ => rfl, Set.ncard_empty]
        decide
  | some n =>
      rw [hroot] at hlt
      obtain ⟨n', hsub, hn', hcount⟩ := subscribeAt_spec (h n hroot) hlt
      rw [hsub]
      exact ⟨{ root := some n' }, rfl, soundAt_some hn', hcount⟩

theorem nnTrieUnsubscribe_spec {t : NnTrie} (h : SoundAt t.root) {data : List Byte}
    (hpos : 0 < t.count data) :
    ∃ t', nnTrieUnsubscribe t data = some (t', if t.count data = 1 then 1 else 0) ∧
      SoundAt t'.root ∧ t'.count = settled NN_TRIE_SPARSE_MAX t.count
        (Function.update t.count data (t.count data - 1)) := by
  rw [nnTrieUnsubscribe]
  unfold NnTrie.count at hpos ⊢
  cases hroot : t.root with
  | none =>
      rw [hroot] at hpos
      exact absurd hpos (Nat.lt_irrefl 0)
  | some n =>
      rw [hroot] at hpos
      obtain ⟨o, hun, ho, hcount, -⟩ := nnNodeUnsubscribe_spec (h n hroot) hpos
      rw [hun]
      exact ⟨{ root := o }, rfl, ho, hcount⟩

/-- The code answers every orderly call as it says, and then counts what it remembers. -/
theorem call_spec {t : NnTrie} {subs : List (List Byte)} (h : t.Holds subs) {c : SubCall}
    (hc : c.Orderly subs) :
    ∃ t', t.call c = some (t', c.answer subs) ∧ t'.Holds (c.remember subs) := by
  obtain ⟨hsound, hcount⟩ := h
  have hremember : (fun x => (c.remember subs).count x)
      = settled NN_TRIE_SPARSE_MAX t.count (fun x => (c.asked subs).count x) := by
    funext x
    rw [remember, count_settle, hcount]
  have hdata : ∀ data, subs.count data = t.count data := fun data => by rw [hcount]
  unfold NnTrie.Holds
  rw [hremember]
  cases c with
  | subscribe data =>
      have hanswer : answer subs (.subscribe data) = if t.count data = 0 then 1 else 0 := by
        rw [← hdata, answer]
        by_cases hmem : data ∈ subs
        · rw [if_pos hmem, if_neg (List.count_pos_iff.mpr hmem).ne']
        · rw [if_neg hmem, if_pos (List.count_eq_zero.mpr hmem)]
      rw [hanswer, asked, count_cons_eq, ← hcount, hdata]
      exact nnTrieSubscribe_spec hsound (hdata data ▸ hc)
  | unsubscribe data =>
      have hpos : 0 < subs.count data := List.count_pos_iff.mpr hc
      rw [answer, asked, count_erase_eq, ← hcount, hdata]
      exact nnTrieUnsubscribe_spec hsound (hdata data ▸ hpos)

/-! ## Runs -/

/-- The calls one after the other, with what each returns. -/
def NnTrie.run (t : NnTrie) : List SubCall → Option (NnTrie × List Int)
  | [] => some (t, [])
  | c :: calls => (t.call c).bind fun r => (r.1.run calls).map fun s => (s.1, r.2 :: s.2)

/-- What the calls are to return, from the strings that are remembered. -/
def answers (subs : List (List Byte)) : List SubCall → List Int
  | [] => []
  | c :: calls => c.answer subs :: answers (c.remember subs) calls

theorem run_spec {t : NnTrie} {subs : List (List Byte)} (h : t.Holds subs) {calls : List SubCall}
    (hcalls : Runs.AllSteps remember Orderly subs calls) :
    ∃ t', t.run calls = some (t', answers subs calls) ∧
      t'.Holds (calls.foldl remember subs) := by
  induction calls generalizing t subs with
  | nil => exact ⟨t, rfl, h⟩
  | cons c calls ih =>
      obtain ⟨t', hcall, hholds⟩ := call_spec h hcalls.1
      obtain ⟨t'', hrun, hholds'⟩ := ih hholds hcalls.2
      refine ⟨t'', ?_, hholds'⟩
      rw [NnTrie.run, hcall, Option.bind_some, hrun]
      rfl

/--
**The trie is the list of what it remembers.**

In a run that unsubscribes only what is remembered the code fails no assertion, returns
1 for each first and each last subscription to a string and 0 for the others, and counts
in the end what is remembered, each string as often as it is.
-/
theorem trie_refines {calls : List SubCall} (h : Runs.AllSteps remember Orderly [] calls) :
    ∃ t, nnTrieInit.run calls = some (t, answers [] calls) ∧
      ∀ x, t.count x = (calls.foldl remember []).count x := by
  obtain ⟨t, hrun, -, hcount⟩ := run_spec nnTrieInit_holds h
  exact ⟨t, hrun, fun x => congrFun hcount x⟩

theorem trie_refines_twice :
    ∃ t, nnTrieInit.run [.subscribe [65], .subscribe [65], .unsubscribe [65]]
        = some (t, answers [] [.subscribe [65], .subscribe [65], .unsubscribe [65]]) ∧
      ∀ x, t.count x
        = ([.subscribe [65], .subscribe [65], .unsubscribe [65]].foldl remember []).count x :=
  trie_refines (by decide)

/-- A call, beside the strings that its user has asked for. -/
def NnTrie.asking (s : Option NnTrie × List (List Byte)) (c : SubCall) :
    Option NnTrie × List (List Byte) :=
  ((s.1.bind fun t => t.call c).map Prod.fst, c.asked s.2)

/-- The trie is there and counts what its user has asked for. -/
def NnTrie.Faithful (s : Option NnTrie × List (List Byte)) : Prop :=
  ∃ t, s.1 = some t ∧ ∀ x, t.count x = s.2.count x

/-- The call returns what its user is told to expect. -/
def NnTrie.Answers (s : Option NnTrie × List (List Byte)) (c : SubCall) : Prop :=
  (s.1.bind fun t => t.call c).map Prod.snd = some (c.answer s.2)

/-- Where the call keeps what is there, nothing is dropped. -/
theorem remember_of_keeps {subs : List (List Byte)} {c : SubCall} (h : c.Keeps subs) :
    c.remember subs = c.asked subs :=
  List.filter_eq_self.mpr fun x hx => decide_eq_true (h x hx)

/-- Where it does not, a string is asked for and not remembered. -/
theorem exists_dropped {subs : List (List Byte)} {c : SubCall} (h : ¬c.Keeps subs) :
    ∃ x, (c.remember subs).count x ≠ (c.asked subs).count x := by
  simp only [Keeps, not_forall, exists_prop] at h
  obtain ⟨x, hx, hnot⟩ := h
  refine ⟨x, ?_⟩
  have hdropped : x ∉ c.remember subs := by
    intro hmem
    rw [remember, settle, List.mem_filter, decide_eq_true_eq] at hmem
    exact hnot hmem.2
  rw [List.count_eq_zero.mpr hdropped]
  exact (List.count_pos_iff.mpr hx).ne

/--
**When the trie is true to its user.**

For a user who unsubscribes only what it has asked for, every call returns what `trie.h`
says and the trie counts throughout what was asked for, exactly if no call takes a
subscribed string from eight letters behind it to nine or back.
-/
theorem trie_faithful_iff {calls : List SubCall}
    (h : Runs.AllSteps NnTrie.asking (fun s c => c.Orderly s.2) (some nnTrieInit, []) calls) :
    Runs.AllSteps NnTrie.asking NnTrie.Answers (some nnTrieInit, []) calls ∧
        Runs.AllStates NnTrie.asking NnTrie.Faithful (some nnTrieInit, []) calls ↔
      Runs.AllSteps NnTrie.asking (fun s c => c.Keeps s.2) (some nnTrieInit, []) calls := by
  refine Runs.allSteps_and_allStates_iff_within (I := fun s => ∃ t, s.1 = some t ∧ t.Holds s.2)
    ⟨nnTrieInit, rfl, nnTrieInit_holds⟩ ?_ ?_ ?_ h
  · rintro s ⟨t, ht, -, hcount⟩
    exact ⟨t, ht, fun x => congrFun hcount x⟩
  · rintro s c ⟨t, ht, hholds⟩ hc hkeeps
    obtain ⟨t', hcall, hholds'⟩ := call_spec hholds hc
    rw [remember_of_keeps hkeeps] at hholds'
    have hbind : (s.1.bind fun t => t.call c) = some (t', c.answer s.2) := by
      rw [ht, Option.bind_some, hcall]
    exact ⟨by rw [NnTrie.Answers, hbind]; rfl, t', by rw [NnTrie.asking, hbind]; rfl, hholds'⟩
  · rintro s c ⟨t, ht, hholds⟩ hc hnot ⟨t'', ht'', hcount⟩
    obtain ⟨t', hcall, -, hcount'⟩ := call_spec hholds hc
    obtain ⟨x, hx⟩ := exists_dropped hnot
    rw [NnTrie.asking, ht, Option.bind_some, hcall, Option.map_some, Option.some.injEq] at ht''
    subst ht''
    exact hx ((congrFun hcount' x).symm.trans (hcount x))

theorem trie_faithful_twice :
    Runs.AllSteps NnTrie.asking NnTrie.Answers (some nnTrieInit, [])
          [.subscribe [65], .unsubscribe [65]] ∧
        Runs.AllStates NnTrie.asking NnTrie.Faithful (some nnTrieInit, [])
          [.subscribe [65], .unsubscribe [65]] ↔
      Runs.AllSteps NnTrie.asking (fun s c => c.Keeps s.2) (some nnTrieInit, [])
        [.subscribe [65], .unsubscribe [65]] :=
  trie_faithful_iff ⟨by decide, by decide, trivial⟩

-- who has subscribed to everything, and then to nine letters, is no longer sent everything
example : [] ∉ (([] :: [[1], [2], [3], [4], [5], [6], [7], [8], [9]]).map
    SubCall.subscribe).foldl remember [] := by decide

/-! ## Receiving -/

/-- `nn_xsub_recv` on the bodies that the fair queue gives next: the message it returns,
if any, and what is left of the queue. -/
def nnXsubRecv (t : NnTrie) : List (List Byte) → Option (Option (List Byte) × List (List Byte))
  -- `-EAGAIN`
  | [] => some (none, [])
  | msg :: fq => (nnTrieMatch t msg).bind fun rc =>
      if rc then some (some msg, fq) else nnXsubRecv t fq

/-- A string of the list is a beginning of the message. -/
def Subscribed (subs : List (List Byte)) (msg : List Byte) : Prop := ∃ p ∈ subs, p <+: msg

instance (subs : List (List Byte)) (msg : List Byte) : Decidable (Subscribed subs msg) :=
  inferInstanceAs (Decidable (∃ p ∈ subs, p <+: msg))

/-- The first message that is subscribed to, and what is behind it. -/
def firstSubscribed (subs : List (List Byte)) (fq : List (List Byte)) :
    Option (List Byte) × List (List Byte) :=
  let found := fq.dropWhile fun msg => ¬Subscribed subs msg
  (found.head?, found.tail)

/-- The message ends on the way to a string of the list, before any of them. -/
def EndsBefore (subs : List (List Byte)) (msg : List Byte) : Prop :=
  ¬Subscribed subs msg ∧ ∃ c y, msg ++ c :: y ∈ subs

theorem covers_iff {t : NnTrie} {subs : List (List Byte)} (h : t.Holds subs) (msg : List Byte) :
    Covers t.count msg ↔ Subscribed subs msg := by
  rw [Covers, Subscribed, h.2]
  simp only [List.count_pos_iff, and_comm]

theorem match_spec {t : NnTrie} {subs : List (List Byte)} (h : t.Holds subs) (msg : List Byte) :
    nnTrieMatch t msg = some (decide (Subscribed subs msg)) ∨
      nnTrieMatch t msg = none ∧ EndsBefore subs msg := by
  have hcovers := covers_iff h msg
  unfold nnTrieMatch
  unfold NnTrie.count at hcovers
  cases hroot : t.root with
  | none =>
      rw [hroot] at hcovers
      have hnot : ¬Subscribed subs msg := by
        rw [← hcovers]
        rintro ⟨p, -, hpos⟩
        exact Nat.lt_irrefl 0 hpos
      refine .inl ?_
      rw [matchAt, decide_eq_false hnot]
  | some n =>
      have hn := h.1 n hroot
      obtain ⟨htrue, hnone⟩ := matchAt_spec hn msg
      rw [hroot] at hcovers
      cases hm : matchAt (some n) msg with
      | none =>
          obtain ⟨htext, hnot⟩ := hnone.mp hm
          have hzero : n.count msg = 0 := by
            by_contra hne
            exact hnot ⟨msg, List.prefix_rfl, Nat.pos_of_ne_zero hne⟩
          obtain ⟨c, y, hpos⟩ := htext.goes_on hn hzero
          have hcount : n.count = fun x => subs.count x := by
            rw [← h.2, NnTrie.count, hroot]
            rfl
          rw [hcount] at hpos
          exact .inr ⟨rfl, fun hs => hnot (hcovers.mpr hs), c, y, List.count_pos_iff.mp hpos⟩
      | some b =>
          refine .inl (congrArg some ?_)
          have hb : b = true ↔ Subscribed subs msg := by
            rw [← hcovers]
            exact ⟨fun hb => htrue.mp (by rw [hm, hb]), fun hs => by
              have := htrue.mpr hs
              rwa [hm, Option.some.injEq] at this⟩
          cases b
          · exact (decide_eq_false fun hs => Bool.false_ne_true (hb.mpr hs)).symm
          · exact (decide_eq_true (hb.mp rfl)).symm

theorem recv_spec {t : NnTrie} {subs : List (List Byte)} (h : t.Holds subs)
    (fq : List (List Byte)) :
    nnXsubRecv t fq = some (firstSubscribed subs fq) ∨
      nnXsubRecv t fq = none ∧ ∃ msg ∈ fq, EndsBefore subs msg := by
  induction fq with
  | nil => exact .inl rfl
  | cons msg fq ih =>
      rw [nnXsubRecv]
      obtain hm | ⟨hm, hends⟩ := match_spec h msg
      · rw [hm, Option.bind_some]
        by_cases hs : Subscribed subs msg
        · refine .inl ?_
          simp [firstSubscribed, hs]
        · have hskip : firstSubscribed subs (msg :: fq) = firstSubscribed subs fq := by
            simp [firstSubscribed, hs]
          rw [if_neg (by simpa using hs), hskip]
          obtain hrecv | ⟨hrecv, m, hmem, hends⟩ := ih
          · exact .inl hrecv
          · exact .inr ⟨hrecv, m, List.mem_cons_of_mem _ hmem, hends⟩
      · rw [hm]
        exact .inr ⟨rfl, msg, List.mem_cons_self, hends⟩

/--
**A SUB socket passes on what it is subscribed to.**

After any calls that unsubscribe only what is remembered, and whatever is in its queue,
`nn_xsub_recv` passes over the messages that no remembered string begins and returns the
first one that some such string does. It looks behind a message only where one ends on
the way to a remembered string, before any of them.
-/
theorem recv_filters {calls : List SubCall} (h : Runs.AllSteps remember Orderly [] calls)
    (fq : List (List Byte)) :
    ∃ t, nnTrieInit.run calls = some (t, answers [] calls) ∧
      (nnXsubRecv t fq = some (firstSubscribed (calls.foldl remember []) fq) ∨
        nnXsubRecv t fq = none ∧ ∃ msg ∈ fq, EndsBefore (calls.foldl remember []) msg) := by
  obtain ⟨t, hrun, hholds⟩ := run_spec nnTrieInit_holds h
  exact ⟨t, hrun, recv_spec hholds fq⟩

theorem recv_filters_second :
    ∃ t, nnTrieInit.run [.subscribe [65]] = some (t, answers [] [.subscribe [65]]) ∧
      (nnXsubRecv t [[66, 65], [65, 66]]
          = some (firstSubscribed ([.subscribe [65]].foldl remember []) [[66, 65], [65, 66]]) ∨
        nnXsubRecv t [[66, 65], [65, 66]] = none ∧
          ∃ msg ∈ [[66, 65], [65, 66]], EndsBefore ([.subscribe [65]].foldl remember []) msg) :=
  recv_filters (by decide) _

end NanomsgDemo.Nanomsg

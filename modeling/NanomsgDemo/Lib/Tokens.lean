import Mathlib.Data.List.Basic

/-!
# Tokens

A list is cut at every separator. Its `tokens` are the segments between them, except
that an empty segment at the end is not counted: what ends with a separator has been
read to its end.

`tokens_nil`, `tokens_end` and `tokens_cut` say what a reader that takes one token
after another meets; `interleave_tokens` puts a list together again.
-/

namespace Tokens

variable {α β : Type*}

/-- The segments without an empty one at the end. -/
def dropEmptyEnd : List (List α) → List (List α)
  | [] => []
  | [[]] => []
  | t :: ts => t :: dropEmptyEnd ts

theorem dropEmptyEnd_cons {t : List α} {ts : List (List α)} (h : t ≠ [] ∨ ts ≠ []) :
    dropEmptyEnd (t :: ts) = t :: dropEmptyEnd ts := by
  refine dropEmptyEnd.eq_3 t ts fun ht hts => ?_
  rcases h with h | h
  · exact h ht
  · exact h hts

/-- Nothing else is left out. -/
theorem dropEmptyEnd_or {ts : List (List α)} (hne : ts ≠ []) :
    dropEmptyEnd ts = ts ∧ ts.getLast? ≠ some [] ∨ ts = dropEmptyEnd ts ++ [[]] := by
  induction ts with
  | nil => exact absurd rfl hne
  | cons t ts ih =>
      by_cases h : t ≠ [] ∨ ts ≠ []
      · rw [dropEmptyEnd_cons h]
        by_cases hts : ts = []
        · subst hts
          left
          exact ⟨rfl, by simpa using h⟩
        · rcases ih hts with ⟨heq, hlast⟩ | heq
          · left
            rw [heq]
            refine ⟨rfl, ?_⟩
            rw [List.getLast?_cons_of_ne_nil hts]
            exact hlast
          · right
            rw [List.cons_append, ← heq]
      · obtain ⟨ht, hts⟩ : t = [] ∧ ts = [] := by simpa using h
        subst ht hts
        right
        rfl

/-- The tokens of a list, cut where `p` holds. -/
def tokens (p : α → Bool) (s : List α) : List (List α) := dropEmptyEnd (s.splitOnP p)

variable {p : α → Bool} {s t rest : List α} {c : α}

@[simp] theorem tokens_nil : tokens p [] = [] := by simp [tokens, dropEmptyEnd]

/-- What is left without a separator is the last token. -/
theorem tokens_end (hne : s ≠ []) (h : ∀ x ∈ s, p x = false) : tokens p s = [s] := by
  rw [tokens, List.splitOnP_eq_singleton h, dropEmptyEnd_cons (.inl hne)]
  rfl

/-- Any other token ends at the first separator. -/
theorem tokens_cut (h : ∀ x ∈ t, p x = false) (hc : p c = true) :
    tokens p (t ++ c :: rest) = t :: tokens p rest := by
  rw [tokens, List.splitOnP_append_cons_of_forall_mem h c hc,
    dropEmptyEnd_cons (.inr (List.splitOnP_ne_nil p rest))]
  rfl

/-- A list is empty, a last token, or a token in front of a separator. -/
theorem cut_cases (p : α → Bool) (s : List α) :
    s = [] ∨ (s ≠ [] ∧ ∀ x ∈ s, p x = false) ∨
      ∃ t c rest, s = t ++ c :: rest ∧ (∀ x ∈ t, p x = false) ∧ p c = true := by
  induction s with
  | nil => exact .inl rfl
  | cons x s ih =>
      right
      by_cases hx : p x = true
      · exact .inr ⟨[], x, s, rfl, by simp, hx⟩
      · have hx : p x = false := by simpa using hx
        rcases ih with rfl | ⟨_, h⟩ | ⟨t, c, rest, rfl, ht, hc⟩
        · exact .inl ⟨by simp, by simpa using hx⟩
        · exact .inl ⟨by simp, List.forall_mem_cons.mpr ⟨hx, h⟩⟩
        · exact .inr ⟨x :: t, c, rest, rfl, List.forall_mem_cons.mpr ⟨hx, ht⟩, hc⟩

/-- Reading token by token goes through the whole list. -/
theorem tokens_induction {motive : List α → Prop} (p : α → Bool) (nil : motive [])
    (last : ∀ s, s ≠ [] → (∀ x ∈ s, p x = false) → motive s)
    (cut : ∀ t c rest, (∀ x ∈ t, p x = false) → p c = true → motive rest →
      motive (t ++ c :: rest)) (s : List α) : motive s := by
  induction hn : s.length using Nat.strongRecOn generalizing s with
  | ind n ih =>
      subst hn
      rcases cut_cases p s with rfl | ⟨hne, h⟩ | ⟨t, c, rest, rfl, ht, hc⟩
      · exact nil
      · exact last s hne h
      · refine cut t c rest ht hc (ih rest.length ?_ rest rfl)
        rw [List.length_append, List.length_cons]
        omega

/-- No token contains a separator. -/
theorem not_of_mem_tokens (h : t ∈ tokens p s) : ∀ x ∈ t, p x = false := by
  induction s using tokens_induction p with
  | nil => simp at h
  | last s hne hs =>
      rw [tokens_end hne hs, List.mem_singleton] at h
      exact h ▸ hs
  | cut t' c rest ht hc ih =>
      rw [tokens_cut ht hc] at h
      rcases List.mem_cons.mp h with rfl | h
      · exact ht
      · exact ih h

/-- A token is in one piece in the list. -/
theorem infix_of_mem_tokens (h : t ∈ tokens p s) : t <:+: s := by
  induction s using tokens_induction p with
  | nil => simp at h
  | last s hne hs =>
      rw [tokens_end hne hs, List.mem_singleton] at h
      exact h ▸ List.infix_rfl
  | cut t' c rest ht hc ih =>
      rw [tokens_cut ht hc] at h
      rcases List.mem_cons.mp h with rfl | h
      · exact (List.prefix_append t (c :: rest)).isInfix
      · exact (ih h).trans ⟨t' ++ [c], [], by simp⟩

/-- The tokens are the segments, but for an empty segment at the end. -/
theorem tokens_or (p : α → Bool) (s : List α) :
    tokens p s = s.splitOnP p ∧ (tokens p s).getLast? ≠ some [] ∨
      s.splitOnP p = tokens p s ++ [[]] := by
  rcases dropEmptyEnd_or (List.splitOnP_ne_nil p s) with ⟨heq, hlast⟩ | heq
  · left
    unfold tokens
    exact ⟨heq, by rw [heq]; exact hlast⟩
  · exact .inr heq

/-! ## One separator -/

section One

variable [DecidableEq α]

theorem forall_ne_iff : (∀ x ∈ s, decide (x = c) = false) ↔ c ∉ s := by
  simp only [decide_eq_false_iff_not]
  exact List.forall_mem_ne'

/-- What is in front of the first separator goes on behind a list without one. -/
theorem takeWhile_ne_append (h : c ∉ t) :
    (t ++ rest).takeWhile (· ≠ c) = t ++ rest.takeWhile (· ≠ c) := by
  refine List.takeWhile_append_of_pos ?_
  intro x hx
  exact decide_eq_true (List.forall_mem_ne'.mpr h x hx)

theorem takeWhile_ne_of_notMem (h : c ∉ t) : t.takeWhile (· ≠ c) = t := by
  have happend : (t ++ []).takeWhile (· ≠ c) = t ++ [].takeWhile (· ≠ c) := takeWhile_ne_append h
  simpa using happend

/-- A list is empty, or without the separator, or has a first one. -/
theorem cut_cases_one (c : α) (s : List α) :
    s = [] ∨ (s ≠ [] ∧ c ∉ s) ∨ ∃ t rest, s = t ++ c :: rest ∧ c ∉ t := by
  rcases cut_cases (· = c) s with hempty | ⟨hne, hplain⟩ | ⟨t, d, rest, hcut, ht, hd⟩
  · exact .inl hempty
  · exact .inr (.inl ⟨hne, forall_ne_iff.mp hplain⟩)
  · obtain rfl : d = c := of_decide_eq_true hd
    exact .inr (.inr ⟨t, rest, hcut, forall_ne_iff.mp ht⟩)

theorem tokens_end_one (hne : s ≠ []) (h : c ∉ s) : tokens (· = c) s = [s] :=
  tokens_end hne (forall_ne_iff.mpr h)

theorem tokens_cut_one (h : c ∉ t) :
    tokens (· = c) (t ++ c :: rest) = t :: tokens (· = c) rest :=
  tokens_cut (forall_ne_iff.mpr h) (decide_eq_true rfl)

end One

/-! ## Putting a list together again -/

/-- Tokens and separators in turn, as long as there are tokens. -/
def interleave : List (List α) → List α → List α
  | [], _ => []
  | t :: ts, [] => t ++ interleave ts []
  | t :: ts, c :: cs => t ++ c :: interleave ts cs

/-- **The tokens and the separators of a list, in their order, are the list.** -/
theorem interleave_tokens (p : α → Bool) (s : List α) :
    interleave (tokens p s) (s.filter p) = s := by
  induction s using tokens_induction p with
  | nil => simp [interleave]
  | last s hne h =>
      have hf : s.filter p = [] := List.filter_eq_nil_iff.mpr fun x hx => by simp [h x hx]
      rw [tokens_end hne h, hf]
      simp [interleave]
  | cut t c rest ht hc ih =>
      have hf : t.filter p = [] := List.filter_eq_nil_iff.mpr fun x hx => by simp [ht x hx]
      rw [tokens_cut ht hc, List.filter_append, hf, List.nil_append,
        List.filter_cons_of_pos hc, interleave, ih]

/-! ## Reading up to the first failure -/

/-- What `f` makes of the elements in front of the first one it refuses. -/
def leading (f : α → Option β) : List α → List β
  | [] => []
  | a :: as =>
      match f a with
      | none => []
      | some b => b :: leading f as

variable {f : α → Option β} {a : α} {b : β} {as : List α}

theorem leading_cons_none (h : f a = none) : leading f (a :: as) = [] := by
  rw [leading, h]

theorem leading_cons_some (h : f a = some b) : leading f (a :: as) = b :: leading f as := by
  rw [leading, h]

/-- Nothing is read exactly when the first element is refused, or there is none. -/
theorem leading_eq_nil_iff : leading f as = [] ↔ ∀ a ∈ as.head?, f a = none := by
  cases as with
  | nil => simp [leading]
  | cons a as =>
      rw [leading]
      cases h : f a <;> simp [h]

/-- What is read comes from the elements in front of the first that is refused. -/
theorem mem_leading_iff {taken : α → Bool} (htaken : ∀ a, taken a = true ↔ f a ≠ none) :
    b ∈ leading f as ↔ ∃ a ∈ as.takeWhile taken, f a = some b := by
  induction as with
  | nil => simp [leading]
  | cons a as ih =>
      cases ha : f a with
      | none =>
          have hrefused : ¬taken a = true := fun h => (htaken a).mp h ha
          rw [leading_cons_none ha, List.takeWhile_cons_of_neg hrefused]
          simp
      | some b' =>
          have hread : taken a = true := (htaken a).mpr (by simp [ha])
          rw [leading_cons_some ha, List.takeWhile_cons_of_pos hread]
          simp [ih, ha, eq_comm]

/-- Everything is read when nothing is refused. -/
theorem leading_eq_filterMap (h : ∀ a ∈ as, f a ≠ none) : leading f as = as.filterMap f := by
  induction as with
  | nil => rfl
  | cons a as ih =>
      obtain ⟨ha, has⟩ := List.forall_mem_cons.mp h
      obtain ⟨b, hb⟩ := Option.ne_none_iff_exists'.mp ha
      rw [leading_cons_some hb, List.filterMap_cons_some hb, ih has]

end Tokens

import Mathlib.Data.List.Basic
import Mathlib.Tactic.Tauto

/-!
# Runs of a deterministic system

A system is a step function `step : σ → α → σ`, and a run of it is the list of
actions taken. Two things are said about a run: what every *step* meets in the
state it is taken from, and what every *state* on the way meets.

Three rules carry a step lemma over to runs. A property that a step keeps exactly
if it is well behaved holds throughout a run exactly if every step of it is
(`allStates_iff_allSteps`); one that does not come back once lost need only be
looked at in the end (`allSteps_and_final_iff`); and if a good outcome tells of a
good step before it, a good end tells of the whole run (`allSteps_of_final`).
-/

namespace Runs

variable {σ α : Type*} {step : σ → α → σ}

/-- Every step of the run meets `ok` in the state it is taken from. -/
def AllSteps (step : σ → α → σ) (ok : σ → α → Prop) : σ → List α → Prop
  | _, [] => True
  | s, a :: as => ok s a ∧ AllSteps step ok (step s a) as

/-- Every state the run passes through meets `P`, the first and the last included. -/
def AllStates (step : σ → α → σ) (P : σ → Prop) : σ → List α → Prop
  | s, [] => P s
  | s, a :: as => P s ∧ AllStates step P (step s a) as

instance AllSteps.decidable {ok : σ → α → Prop} [∀ s a, Decidable (ok s a)] :
    ∀ s as, Decidable (AllSteps step ok s as)
  | _, [] => isTrue trivial
  | s, a :: as => @instDecidableAnd _ _ _ (AllSteps.decidable (step s a) as)

theorem allSteps_append {ok : σ → α → Prop} {s : σ} {as bs : List α} :
    AllSteps step ok s (as ++ bs) ↔
      AllSteps step ok s as ∧ AllSteps step ok (as.foldl step s) bs := by
  induction as generalizing s with
  | nil => simp [AllSteps]
  | cons a as ih => simp [AllSteps, ih, and_assoc]

theorem AllSteps.mono {ok ok' : σ → α → Prop} {s : σ} {as : List α} (h : AllSteps step ok s as)
    (hok : ∀ s a, ok s a → ok' s a) : AllSteps step ok' s as := by
  induction as generalizing s with
  | nil => trivial
  | cons a as ih => exact ⟨hok s a h.1, ih h.2⟩

theorem AllStates.mono {P Q : σ → Prop} {s : σ} {as : List α} (h : AllStates step P s as)
    (hPQ : ∀ s, P s → Q s) : AllStates step Q s as := by
  induction as generalizing s with
  | nil => exact hPQ s h
  | cons a as ih => exact ⟨hPQ s h.1, ih h.2⟩

theorem allSteps_and {ok ok' : σ → α → Prop} {s : σ} {as : List α} :
    AllSteps step (fun s a => ok s a ∧ ok' s a) s as ↔
      AllSteps step ok s as ∧ AllSteps step ok' s as := by
  induction as generalizing s with
  | nil => simp [AllSteps]
  | cons a as ih => simp only [AllSteps, ih]; tauto

theorem allStates_and {P Q : σ → Prop} {s : σ} {as : List α} :
    AllStates step (fun s => P s ∧ Q s) s as ↔ AllStates step P s as ∧ AllStates step Q s as := by
  induction as generalizing s with
  | nil => exact Iff.rfl
  | cons a as ih => simp only [AllStates, ih]; tauto

/-- What holds in every state holds in particular where a step is taken. -/
theorem AllStates.and_allSteps {P : σ → Prop} {ok : σ → α → Prop} {s : σ} {as : List α}
    (h : AllStates step P s as) (h' : AllSteps step ok s as) :
    AllSteps step (fun s a => P s ∧ ok s a) s as := by
  induction as generalizing s with
  | nil => trivial
  | cons a as ih => exact ⟨⟨h.1, h'.1⟩, ih h.2 h'.2⟩

/-- Step by step: the action at any place of the run meets `ok` in the state reached there. -/
theorem allSteps_iff {ok : σ → α → Prop} {s : σ} {as : List α} :
    AllSteps step ok s as ↔
      ∀ pre a post, as = pre ++ a :: post → ok (pre.foldl step s) a := by
  constructor
  · rintro h pre a post rfl
    exact (allSteps_append.mp h).2.1
  · induction as generalizing s with
    | nil => intro _; trivial
    | cons a as ih =>
        intro h
        refine ⟨h [] a as rfl, ih fun pre b post hq => ?_⟩
        -- what comes before an action of the rest starts with `a`
        exact h (a :: pre) b post (by rw [hq, List.cons_append])

/-- State by state: what is reached after any initial part of the run meets `P`. -/
theorem allStates_iff {P : σ → Prop} {s : σ} {as : List α} :
    AllStates step P s as ↔ ∀ pre post, as = pre ++ post → P (pre.foldl step s) := by
  constructor
  · intro h pre post hq
    induction pre generalizing s as with
    | nil =>
        cases as with
        | nil => exact h
        | cons a as => exact h.1
    | cons a pre ih =>
        subst hq
        exact ih h.2 rfl
  · induction as generalizing s with
    | nil => intro h; exact h [] [] rfl
    | cons a as ih =>
        intro h
        refine ⟨h [] (a :: as) rfl, ih fun pre post hq => ?_⟩
        exact h (a :: pre) post (by rw [hq, List.cons_append])

/-- An invariant that every step keeps holds at the end of every run. -/
theorem invariant {I : σ → Prop} {s : σ} (hs : I s)
    (hstep : ∀ s a, I s → I (step s a)) (as : List α) : I (as.foldl step s) := by
  induction as generalizing s with
  | nil => exact hs
  | cons a as ih => exact ih (hstep s a hs)

/-- An invariant that the well-behaved steps keep holds in every state of a run of such steps. -/
theorem allStates_of_allSteps {I : σ → Prop} {Q : σ → α → Prop} {s : σ} (hs : I s)
    (hstep : ∀ s a, I s → Q s a → I (step s a)) {as : List α}
    (h : AllSteps step Q s as) : AllStates step I s as := by
  induction as generalizing s with
  | nil => exact hs
  | cons a as ih => exact ⟨hs, ih (hstep s a hs h.1) h.2⟩

theorem invariant_of_allSteps {I : σ → Prop} {Q : σ → α → Prop} {s : σ} (hs : I s)
    (hstep : ∀ s a, I s → Q s a → I (step s a)) {as : List α}
    (h : AllSteps step Q s as) : I (as.foldl step s) :=
  allStates_iff.mp (allStates_of_allSteps hs hstep h) as [] (by simp)

/--
**Every step is right, and so is every state.**

`P` is what a state is to meet, and `R` a step. Where `P` holds, a step meets `R` and
leads to `P` again exactly when it meets `Q`: then a run is right in all its steps and
all its states exactly when every step meets `Q`, for the first that does not leads
out of it. `I` is what else is known of every reachable state.
-/
theorem allSteps_and_allStates_iff {I P : σ → Prop} {R Q : σ → α → Prop} {s : σ} (hs : I s)
    (hP : P s) (hinv : ∀ s a, I s → I (step s a))
    (hstep : ∀ s a, I s → P s → (R s a ∧ P (step s a) ↔ Q s a)) (as : List α) :
    AllSteps step R s as ∧ AllStates step P s as ↔ AllSteps step Q s as := by
  induction as generalizing s with
  | nil => exact ⟨fun _ => trivial, fun _ => ⟨trivial, hP⟩⟩
  | cons a as ih =>
      have hnext := hinv s a hs
      constructor
      · intro h
        rcases h with ⟨⟨hr, hrs⟩, _, hstates⟩
        have hPnext : P (step s a) := allStates_iff.mp hstates [] as rfl
        exact ⟨(hstep s a hs hP).mp ⟨hr, hPnext⟩, (ih hnext hPnext).mp ⟨hrs, hstates⟩⟩
      · intro h
        rcases (hstep s a hs hP).mpr h.1 with ⟨hr, hPnext⟩
        rcases (ih hnext hPnext).mpr h.2 with ⟨hrs, hstates⟩
        exact ⟨⟨hr, hrs⟩, hP, hstates⟩

/-- The same for the states alone. -/
theorem allStates_iff_allSteps {I P : σ → Prop} {Q : σ → α → Prop} {s : σ} (hs : I s)
    (hP : P s) (hinv : ∀ s a, I s → I (step s a))
    (hstep : ∀ s a, I s → P s → (P (step s a) ↔ Q s a)) (as : List α) :
    AllStates step P s as ↔ AllSteps step Q s as := by
  have hiff := allSteps_and_allStates_iff (R := fun _ _ => True) (Q := Q) hs hP hinv
    (fun t a hi hp => by rw [true_and]; exact hstep t a hi hp) as
  exact ⟨fun h => hiff.mp ⟨allSteps_iff.mpr fun _ _ _ _ => trivial, h⟩, fun h => (hiff.mpr h).2⟩

/--
**The first step that is not well behaved shows.**

`I` is kept by the steps that meet `Q`, which are right, and a step that does not meet
it leads out of `P` at once, which `I` is a part of.
-/
theorem allSteps_and_allStates_iff_of_broken {I P : σ → Prop} {R Q : σ → α → Prop} {s : σ}
    (hs : I s) (hP : ∀ s, I s → P s) (hgood : ∀ s a, I s → Q s a → R s a ∧ I (step s a))
    (hbad : ∀ s a, I s → ¬Q s a → ¬P (step s a)) (as : List α) :
    AllSteps step R s as ∧ AllStates step P s as ↔ AllSteps step Q s as := by
  constructor
  · rintro ⟨-, h⟩
    induction as generalizing s with
    | nil => trivial
    | cons a as ih =>
        have hnext : P (step s a) := allStates_iff.mp h.2 [] as rfl
        have hq : Q s a := by
          by_contra hnot
          exact hbad s a hs hnot hnext
        exact ⟨hq, ih (hgood s a hs hq).2 h.2⟩
  · intro h
    induction as generalizing s with
    | nil => exact ⟨trivial, hP s hs⟩
    | cons a as ih =>
        obtain ⟨hr, hnext⟩ := hgood s a hs h.1
        obtain ⟨hsteps, hstates⟩ := ih hnext h.2
        exact ⟨⟨hr, hsteps⟩, hP s hs, hstates⟩

/-- The same within the runs whose steps meet `O`, which their user sees to. -/
theorem allSteps_and_allStates_iff_within {I P : σ → Prop} {R Q O : σ → α → Prop} {s : σ}
    (hs : I s) (hP : ∀ s, I s → P s)
    (hgood : ∀ s a, I s → O s a → Q s a → R s a ∧ I (step s a))
    (hbad : ∀ s a, I s → O s a → ¬Q s a → ¬P (step s a)) {as : List α}
    (h : AllSteps step O s as) :
    AllSteps step R s as ∧ AllStates step P s as ↔ AllSteps step Q s as := by
  constructor
  · rintro ⟨-, hstates⟩
    induction as generalizing s with
    | nil => trivial
    | cons a as ih =>
        have hnext : P (step s a) := allStates_iff.mp hstates.2 [] as rfl
        have hq : Q s a := by
          by_contra hnot
          exact hbad s a hs h.1 hnot hnext
        exact ⟨hq, ih (hgood s a hs h.1 hq).2 h.2 hstates.2⟩
  · intro hsteps
    induction as generalizing s with
    | nil => exact ⟨trivial, hP s hs⟩
    | cons a as ih =>
        obtain ⟨hr, hnext⟩ := hgood s a hs h.1 hsteps.1
        obtain ⟨hrs, hstates⟩ := ih hnext h.2 hsteps.2
        exact ⟨⟨hr, hrs⟩, hP s hs, hstates⟩

/--
**Backwards from the outcome.**

If a step leads to `P` only when it is well behaved and `P` held before it, then a
run that ends in `P` was well behaved throughout.
-/
theorem allSteps_of_final {I P : σ → Prop} {Q : σ → α → Prop}
    (hinv : ∀ s a, I s → I (step s a))
    (hback : ∀ s a, I s → P (step s a) → Q s a ∧ P s) {s : σ} (hs : I s) {as : List α}
    (h : P (as.foldl step s)) : AllSteps step Q s as ∧ P s := by
  induction as generalizing s with
  | nil => exact ⟨trivial, h⟩
  | cons a as ih =>
      -- the rest of the run is well behaved, and starts from a state with `P`
      obtain ⟨hos, hP⟩ := ih (hinv s a hs) h
      obtain ⟨ho, hPs⟩ := hback s a hs hP
      exact ⟨⟨ho, hos⟩, hPs⟩

/-- What, once lost, does not come back held at the beginning if it holds at the end. -/
theorem holds_of_final {I P : σ → Prop} (hinv : ∀ s a, I s → I (step s a))
    (hback : ∀ s a, I s → P (step s a) → P s) {s : σ} (hs : I s) {as : List α}
    (h : P (as.foldl step s)) : P s :=
  (allSteps_of_final (Q := fun _ _ => True) hinv
    (fun s a hi hP => ⟨trivial, hback s a hi hP⟩) hs h).2

/-- So it held all the time. -/
theorem allStates_of_final {I P : σ → Prop} (hinv : ∀ s a, I s → I (step s a))
    (hback : ∀ s a, I s → P (step s a) → P s) {s : σ} (hs : I s) {as : List α}
    (h : P (as.foldl step s)) : AllStates step P s as := by
  refine allStates_iff.mpr fun pre post hq => ?_
  rw [hq, List.foldl_append] at h
  exact holds_of_final hinv hback (invariant hs hinv pre) h

theorem of_foldl {P : σ → Prop} (hback : ∀ s a, P (step s a) → P s) {s : σ} {as : List α}
    (h : P (as.foldl step s)) : P s :=
  holds_of_final (I := fun _ => True) (fun _ _ _ => trivial) (fun s a _ => hback s a) trivial h

/--
**Every step is right, and so is the outcome.**

`P` is a condition on the outcome that, once lost, does not come back. If, where
`P` still holds, a step is right and keeps `P` exactly when it meets `Q`, then a
run is right in all its steps and in its outcome exactly when every step meets `Q`.
-/
theorem allSteps_and_final_iff {I P : σ → Prop} {R Q : σ → α → Prop} {s : σ}
    (hs : I s) (hP : P s) (hinv : ∀ s a, I s → I (step s a))
    (hback : ∀ s a, I s → P (step s a) → P s)
    (hstep : ∀ s a, I s → P s → (R s a ∧ P (step s a) ↔ Q s a)) (as : List α) :
    AllSteps step R s as ∧ P (as.foldl step s) ↔ AllSteps step Q s as := by
  induction as generalizing s with
  | nil => exact ⟨fun _ => trivial, fun _ => ⟨trivial, hP⟩⟩
  | cons a as ih =>
      have hnext := hinv s a hs
      constructor
      · rintro ⟨⟨hr, hrs⟩, hend⟩
        have hPnext : P (step s a) := holds_of_final hinv hback hnext hend
        exact ⟨(hstep s a hs hP).mp ⟨hr, hPnext⟩, (ih hnext hPnext).mp ⟨hrs, hend⟩⟩
      · rintro ⟨ho, hos⟩
        obtain ⟨hr, hPnext⟩ := (hstep s a hs hP).mpr ho
        obtain ⟨hrs, hend⟩ := (ih hnext hPnext).mpr hos
        exact ⟨⟨hr, hrs⟩, hend⟩

/-- The same for the outcome alone. -/
theorem final_iff_allSteps {I P : σ → Prop} {Q : σ → α → Prop} {s : σ} (hs : I s)
    (hP : P s) (hinv : ∀ s a, I s → I (step s a)) (hback : ∀ s a, I s → P (step s a) → P s)
    (hstep : ∀ s a, I s → P s → (P (step s a) ↔ Q s a)) (as : List α) :
    P (as.foldl step s) ↔ AllSteps step Q s as := by
  have hiff := allSteps_and_final_iff (R := fun _ _ => True) (Q := Q) hs hP hinv hback
    (fun t a hi hp => by rw [true_and]; exact hstep t a hi hp) as
  exact ⟨fun h => hiff.mp ⟨allSteps_iff.mpr fun _ _ _ _ => trivial, h⟩, fun h => (hiff.mpr h).2⟩

/-- Two conditions agree along a run if they agree wherever the steps taken so far may lead. -/
theorem allSteps_iff_of_kept {I : σ → Prop} {R Q : σ → α → Prop} {s : σ} (hs : I s)
    (hstep : ∀ s a, I s → Q s a → I (step s a)) (hok : ∀ s a, I s → (R s a ↔ Q s a))
    (as : List α) : AllSteps step R s as ↔ AllSteps step Q s as := by
  induction as generalizing s with
  | nil => exact Iff.rfl
  | cons a as ih =>
      show R s a ∧ _ ↔ Q s a ∧ _
      rw [hok s a hs]
      exact and_congr_right fun hq => ih (hstep s a hs hq)

/-- Two conditions that agree wherever an invariant holds agree along every run. -/
theorem allSteps_congr {I : σ → Prop} {Q Q' : σ → α → Prop} {s : σ} (hs : I s)
    (hstep : ∀ s a, I s → I (step s a)) (hok : ∀ s a, I s → (Q s a ↔ Q' s a))
    (as : List α) : AllSteps step Q s as ↔ AllSteps step Q' s as :=
  allSteps_iff_of_kept hs (fun s a hi _ => hstep s a hi) hok as

end Runs

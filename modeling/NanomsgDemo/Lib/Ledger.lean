import Mathlib.Data.List.Nodup
import NanomsgDemo.Lib.Runs

/-!
# Accounts of objects

Objects are made, held for a while, and freed. A `Ledger` records what has been made
and what has been freed; whatever is in neither list of those freed and those still
held has been lost.

`Missing.record` says what a step does to the account, and `missing_of_reconciled`
carries it over to runs: nothing is missing in the end exactly when no step has lost
anything, for what is lost is never found again.
-/

namespace Accounts

open Runs

variable {α : Type*}

/-- The objects made so far and those freed so far. -/
structure Ledger (α : Type*) where
  made : List α
  freed : List α

/-- The account when nothing has been made yet. -/
def Ledger.empty : Ledger α := ⟨[], []⟩

/-- Some objects are made and some are freed. -/
def Ledger.record (l : Ledger α) (new gone : List α) : Ledger α :=
  ⟨l.made ++ new, l.freed ++ gone⟩

/-- What has been made and not freed is held, except for what is `lost`. -/
def Missing (l : Ledger α) (held lost : List α) : Prop :=
  l.made.Perm (l.freed ++ held ++ lost)

/-- Everything that has been made is either freed, once, or held. -/
def Reconciled (l : Ledger α) (held : List α) : Prop := Missing l held []

variable {l : Ledger α} {held held' lost lost' new gone : List α}

theorem reconciled_empty : Reconciled (Ledger.empty : Ledger α) [] := List.Perm.refl []

theorem Missing.length (h : Missing l held lost) :
    l.made.length = l.freed.length + held.length + lost.length := by
  have := List.Perm.length_eq h
  simpa [Nat.add_assoc] using this

/-- The account is reconciled exactly when nothing is lost. -/
theorem Missing.reconciled_iff (h : Missing l held lost) : Reconciled l held ↔ lost = [] := by
  refine ⟨fun hb => ?_, fun hl => by subst hl; exact h⟩
  have hlost := h.length
  have hnone := Missing.length hb
  rw [List.length_nil] at hnone
  exact List.length_eq_zero_iff.mp (by omega)

/-- What is held may be held by someone else. -/
theorem Missing.perm (h : Missing l held lost) (hp : held.Perm held') : Missing l held' lost :=
  List.Perm.trans h ((hp.append_left l.freed).append_right lost)

/--
**What a step does to the account.**

`new` comes, `gone` is freed, and what is left over of what was held is `held'`,
except for `lost'`.
-/
theorem Missing.record (h : Missing l held lost)
    (hmove : (held ++ new).Perm (gone ++ held' ++ lost')) :
    Missing (l.record new gone) held' (lost ++ lost') := by
  classical
  refine List.perm_iff_count.mpr fun a => ?_
  have hold := List.perm_iff_count.mp h a
  have hnew := List.perm_iff_count.mp hmove a
  simp only [Ledger.record, List.count_append] at hold hnew ⊢
  omega

/-- When nothing is held any more, the account is reconciled if each object has been freed once. -/
theorem Missing.reconciled_iff_freed_once [DecidableEq α] (h : Missing l [] lost)
    (hn : l.made.Nodup) : Reconciled l [] ↔ ∀ a ∈ l.made, l.freed.count a = 1 := by
  refine ⟨fun hb a ha => ?_, fun hone => h.reconciled_iff.mpr ?_⟩
  · have hcount := List.perm_iff_count.mp hb a
    rw [List.append_nil, List.append_nil] at hcount
    rw [← hcount]
    exact List.count_eq_one_of_mem hn ha
  · -- what is lost has been made, and not freed as well
    refine List.eq_nil_iff_forall_not_mem.mpr fun a ha => ?_
    have hmade : a ∈ l.made := (List.Perm.mem_iff h).mpr (List.mem_append_right _ ha)
    have hcount := List.perm_iff_count.mp h a
    have hlost := List.count_pos_iff.mpr ha
    have hfreed := hone a hmade
    have hmadeOnce := List.count_eq_one_of_mem hn hmade
    simp only [List.count_append, List.count_nil] at hcount
    omega

/-! ## Runs -/

section Runs

variable {σ β : Type*} {step : σ → β → σ} {I : σ → Prop} {book : σ → Ledger α}
  {holds : σ → List α} {loses : σ → β → List α}

/-- The account of a step: what it makes and frees, and what it loses. -/
def Accounted (step : σ → β → σ) (book : σ → Ledger α) (holds : σ → List α)
    (loses : σ → β → List α) (s : σ) (b : β) : Prop :=
  ∃ new gone, book (step s b) = (book s).record new gone ∧
    (holds s ++ new).Perm (gone ++ holds (step s b) ++ loses s b)

/-- What is missing after a run is what was missing before it and what its steps have lost. -/
theorem missing_foldl (hinv : ∀ s b, I s → I (step s b))
    (hstep : ∀ s b, I s → Accounted step book holds loses s b) {s : σ} (hs : I s)
    (h : Missing (book s) (holds s) lost) (bs : List β) :
    ∃ lost', Missing (book (bs.foldl step s)) (holds (bs.foldl step s)) (lost ++ lost') ∧
      (lost' = [] ↔ AllSteps step (fun s b => loses s b = []) s bs) := by
  induction bs generalizing s lost with
  | nil => exact ⟨[], by rw [List.append_nil]; exact h, iff_of_true rfl trivial⟩
  | cons b bs ih =>
      obtain ⟨new, gone, hbook, hmove⟩ := hstep s b hs
      have hnext : Missing (book (step s b)) (holds (step s b)) (lost ++ loses s b) := by
        rw [hbook]
        exact h.record hmove
      obtain ⟨lost', hend, hiff⟩ := ih (hinv s b hs) hnext
      refine ⟨loses s b ++ lost', ?_, ?_⟩
      · rw [← List.append_assoc]
        exact hend
      · rw [List.append_eq_nil_iff]
        exact and_congr_right fun _ => hiff

/-- From a reconciled account, what is missing in the end is what the steps have lost. -/
theorem missing_of_reconciled (hinv : ∀ s b, I s → I (step s b))
    (hstep : ∀ s b, I s → Accounted step book holds loses s b) {s : σ} (hs : I s)
    (h : Reconciled (book s) (holds s)) (bs : List β) :
    ∃ lost, Missing (book (bs.foldl step s)) (holds (bs.foldl step s)) lost ∧
      (lost = [] ↔ AllSteps step (fun s b => loses s b = []) s bs) := by
  obtain ⟨lost, hend, hiff⟩ := missing_foldl hinv hstep hs h bs
  exact ⟨lost, hend, hiff⟩

end Runs

end Accounts

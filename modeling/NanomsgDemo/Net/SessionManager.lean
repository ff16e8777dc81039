import NanomsgDemo.Lib.Recycling
import NanomsgDemo.Lib.Runs
import NanomsgDemo.Net.SocketSession

/-!
# Managed sessions

`libnet/session_manager.cpp`. Sessions are copied into entries of the manager's own:
those in use are in `_live`, those that were removed are to wait in `_die` for the
next `add`. All methods hold `_m` from beginning to end, so a run is a list of whole
calls, with writes to the sessions outside in between.

The lists never share an entry. But `add` looks for the address of the session among
the addresses of the entries, so it does not recognise a session it has a copy of;
and `remove` compares the entries with a variable that is still null.
-/

namespace NanomsgDemo.Net

open Runs Recycling

/-- `SessionManager`: what is in each `SocketSession`, and the two lists of entries. -/
structure SessionManager (κ : Type) where
  heap : Nat → SocketSession κ
  live : List Nat
  die : List Nat

namespace SessionManager

variable {κ : Type}

/-- `SessionManager::add`; `alloc` is the allocation of a new entry. -/
def add (m : SessionManager κ) (alloc : Allocator) (session : Nat) : SessionManager κ × Nat :=
  match m.live.find? fun a => session = a with
  | some a => ({ m with heap := Function.update m.heap a (m.heap session) }, a)
  | none =>
      match m.die with
      | a :: die =>
          ({ heap := Function.update m.heap a (m.heap session), live := m.live ++ [a], die }, a)
      | [] =>
          let a := alloc.addr (session :: m.live)
          let heap := Function.update m.heap a (.init none)
          ({ heap := Function.update heap a (heap session), live := m.live ++ [a], die := [] }, a)

/-- `SessionManager::remove`. The loop does not look at its argument. -/
def remove (m : SessionManager κ) (_session : Nat) : SessionManager κ :=
  let pSession : Ptr := none
  match m.live.find? fun a => pSession = some a with
  | some a => { m with live := m.live.erase a, die := m.die ++ [a] }
  | none => m

/-- `SessionManager::restoreCache`. -/
def restoreCache (m : SessionManager κ) : SessionManager κ := { m with die := [] }

variable {m : SessionManager κ} {session : Nat}

theorem add_of_mem (alloc : Allocator) (h : session ∈ m.live) :
    m.add alloc session = (m, session) := by
  have hfind : (m.live.find? fun a => decide (session = a)) = some session := by
    cases hfind : m.live.find? fun a => decide (session = a) with
    | none => simpa using List.find?_eq_none.mp hfind session h
    | some a =>
        have hfound := List.find?_some hfind
        rw [of_decide_eq_true hfound]
  unfold add
  rw [hfind]
  simp only [Function.update_eq_self]

/-- A session that is not an entry is copied into the first of `_die`, or a new one. -/
theorem add_of_notMem (alloc : Allocator) (h : session ∉ m.live) :
    m.add alloc session =
      (let a := m.die.headD (alloc.addr (session :: m.live))
       ({ heap := Function.update m.heap a (m.heap session), live := m.live ++ [a],
          die := m.die.tail }, a)) := by
  have hfind : (m.live.find? fun a => decide (session = a)) = none := by
    refine List.find?_eq_none.mpr ?_
    intro a ha hsession
    exact h (of_decide_eq_true hsession ▸ ha)
  unfold add
  rw [hfind]
  cases hdie : m.die with
  | cons a die => rfl
  | nil =>
      -- the new entry is not the session that is copied into it
      have hne : session ≠ alloc.addr (session :: m.live) := by
        intro heq
        exact alloc.fresh (session :: m.live) (heq ▸ List.mem_cons_self)
      simp only [Function.update_idem, Function.update_of_ne hne, List.headD_nil, List.tail_nil]

/-- No entry is at the null address, so nothing is ever removed. -/
theorem remove_eq (m : SessionManager κ) (session : Nat) : m.remove session = m := by
  have hfind : (m.live.find? fun a => decide ((none : Ptr) = some a)) = none := by simp
  unfold remove
  simp only [hfind]

/-- The two lists share nothing. -/
def Apart (m : SessionManager κ) : Prop := Separate m.live m.die

theorem Apart.add (h : m.Apart) (alloc : Allocator) (session : Nat) :
    (m.add alloc session).1.Apart := by
  by_cases hmem : session ∈ m.live
  · rw [add_of_mem alloc hmem]
    exact h
  · rw [add_of_notMem alloc hmem]
    unfold Apart at h ⊢
    cases hdie : m.die with
    | cons a die =>
        rw [hdie] at h
        exact h.reuse
    | nil =>
        rw [hdie] at h
        have hfresh : alloc.addr (session :: m.live) ∉ m.live := by
          intro ha
          exact alloc.fresh (session :: m.live) (List.mem_cons_of_mem session ha)
        exact h.push hfresh List.not_mem_nil

theorem Apart.restoreCache (h : m.Apart) : m.restoreCache.Apart := h.clear

end SessionManager

/-! ## Runs -/

/-- A call of one of the methods, or a write to a session from outside. -/
inductive SessionAct (κ : Type) where
  | add (alloc : Allocator) (session : Nat)
  | remove (session : Nat)
  | restoreCache
  | write (a : Nat) (s : SocketSession κ)

/-- The manager, and which session each entry was last taken for. -/
structure SessionRun (κ : Type) where
  manager : SessionManager κ
  source : Nat → Option Nat

namespace SessionRun

variable {κ : Type}

/-- An empty manager, among sessions that are there already. -/
def init (heap : Nat → SocketSession κ) : SessionRun κ := ⟨⟨heap, [], []⟩, fun _ => none⟩

def step (r : SessionRun κ) : SessionAct κ → SessionRun κ
  | .add alloc session =>
      let (manager, a) := r.manager.add alloc session
      { manager
        source := if session ∈ r.manager.live then r.source
          else Function.update r.source a (some session) }
  | .remove session => { r with manager := r.manager.remove session }
  | .restoreCache => { r with manager := r.manager.restoreCache }
  | .write a s => { r with manager.heap := Function.update r.manager.heap a s }

/-- The entry a session is under management with: itself, or the copy that was made of it. -/
def entry (r : SessionRun κ) (session : Nat) : Option Nat :=
  if session ∈ r.manager.live then some session
  else r.manager.live.find? fun a => r.source a = some session

/--
What a step is to do. The entry of a managed session is written over, and no other is
added; any other session gets one more entry, the one that has waited longest if there
is one. An entry that is removed goes to the end of `_die`.
-/
def Keeps (r : SessionRun κ) (act : SessionAct κ) : Prop :=
  let m := r.manager
  let m' := (r.step act).manager
  match act with
  | .add _ session =>
      match r.entry session with
      | some a => m'.heap a = m.heap session ∧ m'.live.length = m.live.length
      | none => ∃ a ∉ m.live, m'.heap a = m.heap session ∧ m'.live = m.live ++ [a] ∧
          (m.die = a :: m'.die ∨ m.die = [] ∧ m'.die = [])
  | .remove session =>
      session ∈ m.live → m'.live = m.live.erase session ∧ m'.die = m.die ++ [session]
  | .restoreCache => True
  | .write _ _ => True

/-- `add` of an entry, or of a session no entry was made for; `remove` of anything else. -/
def Ok (r : SessionRun κ) : SessionAct κ → Prop
  | .add _ session =>
      session ∈ r.manager.live ∨ ∀ a ∈ r.manager.live, r.source a ≠ some session
  | .remove session => session ∉ r.manager.live
  | .restoreCache => True
  | .write _ _ => True

variable {r : SessionRun κ}

theorem apart_step (h : r.manager.Apart) (act : SessionAct κ) : (r.step act).manager.Apart := by
  cases act with
  | add alloc session => exact h.add alloc session
  | remove session =>
      show (r.manager.remove session).Apart
      rw [SessionManager.remove_eq]
      exact h
  | restoreCache => exact h.restoreCache
  | write a s => exact h

theorem apart_init (heap : Nat → SocketSession κ) : (init heap).manager.Apart := separate_nil

theorem apart_run (heap : Nat → SocketSession κ) (acts : List (SessionAct κ)) :
    (acts.foldl step (init heap)).manager.Apart :=
  invariant (I := fun r : SessionRun κ => r.manager.Apart) (apart_init heap)
    (fun _ act h => apart_step h act) acts

theorem keeps_add_iff (h : r.manager.Apart) (alloc : Allocator) (session : Nat) :
    r.Keeps (.add alloc session) ↔ r.Ok (.add alloc session) := by
  unfold Keeps Ok step entry
  by_cases hmem : session ∈ r.manager.live
  · simp [hmem, SessionManager.add_of_mem alloc hmem]
  · have hadd := SessionManager.add_of_notMem alloc hmem
    have hapart := h.add alloc session
    rw [hadd] at hapart
    simp only [hadd, if_neg hmem]
    cases hfind : r.manager.live.find? fun a => decide (r.source a = some session) with
    | some a =>
        -- an entry was made for the session, and another one is made now
        have ha := List.mem_of_find?_eq_some hfind
        have hsource := List.find?_some hfind
        refine iff_of_false ?_ ?_
        · intro hkeeps
          have hlen := hkeeps.2
          rw [List.length_append, List.length_singleton] at hlen
          omega
        · intro hok
          rcases hok with hok | hok
          · exact hmem hok
          · exact hok a ha (of_decide_eq_true hsource)
    | none =>
        have hnone := List.find?_eq_none.mp hfind
        have hok : ∀ a ∈ r.manager.live, r.source a ≠ some session := by
          intro a ha hsource
          exact hnone a ha (decide_eq_true hsource)
        refine iff_of_true ?_ (Or.inr hok)
        refine ⟨_, ?_, Function.update_self .., rfl, ?_⟩
        · intro ha
          have hdisjoint := (List.nodup_append.mp hapart.left).2.2
          exact hdisjoint _ ha _ List.mem_cons_self rfl
        · cases r.manager.die with
          | cons a die => exact Or.inl rfl
          | nil => exact Or.inr ⟨rfl, rfl⟩

theorem keeps_iff (h : r.manager.Apart) (act : SessionAct κ) : r.Keeps act ↔ r.Ok act := by
  cases act with
  | add alloc session => exact keeps_add_iff h alloc session
  | remove session =>
      unfold Keeps Ok step
      simp only [SessionManager.remove_eq]
      constructor
      · intro hkeeps hmem
        -- the list of the removed would have grown
        have hlen := congrArg List.length (hkeeps hmem).2
        rw [List.length_append, List.length_singleton] at hlen
        omega
      · intro hok hmem
        exact absurd hmem hok
  | restoreCache => exact Iff.rfl
  | write a s => exact Iff.rfl

/--
**When the manager keeps its books.**

No entry is ever in the lists twice. A step does what it is to do exactly when it is not
the `remove` of an entry, nor an `add` of a session that an entry was made for already.
-/
theorem sessionManager_iff (heap : Nat → SocketSession κ) (acts : List (SessionAct κ)) :
    AllStates step (fun r => r.manager.Apart) (init heap) acts ∧
    (∀ act, (acts.foldl step (init heap)).Keeps act ↔ (acts.foldl step (init heap)).Ok act) ∧
    (AllSteps step Keeps (init heap) acts ↔ AllSteps step Ok (init heap) acts) := by
  refine ⟨?_, keeps_iff (apart_run heap acts), ?_⟩
  · refine allStates_iff.mpr ?_
    intro pre _ _
    exact apart_run heap pre
  · exact allSteps_congr (I := fun r : SessionRun κ => r.manager.Apart) (apart_init heap)
      (fun _ act h => apart_step h act) (fun _ act h => keeps_iff h act) acts

/-- Session `7` is added twice, and the entry made first is removed: both are still there. -/
theorem not_sessionManager :
    let r := [.add .above 7, .add .above 7, .remove 8].foldl step
      (init fun _ => (.init none : SocketSession Empty))
    r.manager.live = [8, 9] ∧ r.manager.die = [] := by decide

end SessionRun

end NanomsgDemo.Net

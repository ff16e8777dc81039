import NanomsgDemo.Lib.InsertionOrder
import NanomsgDemo.Lib.Runs
import NanomsgDemo.Net.SocketSession

/-!
# The list of live objects

`ManagerT` of `libnet/session_manager.h`: a list of pointers to the objects under
management. Objects are compared by address; removing one deletes it.

The list is what it should be after any calls (`InOrder`): each managed object once,
in the order in which they came. The answers are not. `add` has no pointer to return
for an object that was not managed before, and the search of `find` leaves its last
object in the variable that is returned.
-/

namespace NanomsgDemo.Net

open InsertionOrder Runs

/-- `ManagerT`. -/
structure ManagerT where
  live : List Nat
  deriving DecidableEq, Repr

namespace ManagerT

/-- `ManagerT::add`. An object that is in the list already is assigned to itself. -/
def add (m : ManagerT) (t : Nat) : ManagerT × Ptr :=
  if t ∈ m.live then (m, some t) else (⟨m.live ++ [t]⟩, none)

/-- `ManagerT::remove`: the list afterwards, and whether the object was in it and is deleted. -/
def remove (m : ManagerT) (t : Nat) : ManagerT × Bool :=
  if t ∈ m.live then (⟨m.live.erase t⟩, true) else (m, false)

/-- The loop of `ManagerT::find`, which moves `pT` along with the iterator. -/
def findLoop (cond : Nat → Bool) (pT : Ptr) : List Nat → Ptr
  | [] => pT
  | t :: rest => if cond t then some t else findLoop cond (some t) rest

/-- `ManagerT::find`. -/
def find (m : ManagerT) (cond : Nat → Bool) : Ptr := findLoop cond none m.live

theorem mem_add (m : ManagerT) {t u : Nat} : u ∈ (m.add t).1.live ↔ u ∈ m.live ∨ u = t := by
  unfold add
  split
  · rename_i h
    exact ⟨Or.inl, fun hu => hu.elim id fun he => he ▸ h⟩
  · simp

theorem remove_of_mem {m : ManagerT} {t : Nat} (h : t ∈ m.live) :
    m.remove t = (⟨m.live.erase t⟩, true) := if_pos h

theorem add_of_notMem {m : ManagerT} {t : Nat} (h : t ∉ m.live) :
    m.add t = (⟨m.live ++ [t]⟩, none) := if_neg h

theorem add_of_mem {m : ManagerT} {t : Nat} (h : t ∈ m.live) : m.add t = (m, some t) := if_pos h

theorem remove_of_notMem {m : ManagerT} {t : Nat} (h : t ∉ m.live) : m.remove t = (m, false) :=
  if_neg h

theorem findLoop_eq (cond : Nat → Bool) (pT : Ptr) (live : List Nat) :
    findLoop cond pT live = ((live.find? cond).or live.getLast?).or pT := by
  induction live generalizing pT with
  | nil => rfl
  | cons t rest ih =>
      rw [findLoop, List.find?_cons]
      cases hc : cond t with
      | true => simp
      | false =>
          rw [if_neg (by simp), ih, List.getLast?_cons]
          cases rest.find? cond <;> cases rest.getLast? <;> rfl

/-- Without a match `find` returns the last object. -/
theorem find_eq (m : ManagerT) (cond : Nat → Bool) :
    m.find cond = (m.live.find? cond).or m.live.getLast? := by
  unfold find
  rw [findLoop_eq, Option.or_none]

theorem find_eq_find?_iff (m : ManagerT) (cond : Nat → Bool) :
    m.find cond = m.live.find? cond ↔ m.live = [] ∨ ∃ t ∈ m.live, cond t := by
  rw [find_eq]
  cases hfind : m.live.find? cond with
  | none =>
      have hnone := List.find?_eq_none.mp hfind
      rw [Option.none_or, List.getLast?_eq_none_iff]
      constructor
      · exact Or.inl
      · intro h
        rcases h with h | h
        · exact h
        · obtain ⟨t, ht, hcond⟩ := h
          exact absurd hcond (hnone t ht)
  | some t =>
      have hmem := List.mem_of_find?_eq_some hfind
      exact iff_of_true rfl (Or.inr ⟨t, hmem, List.find?_some hfind⟩)

end ManagerT

/-! ## Runs of a manager -/

/-- A call of one of the methods. -/
inductive ManagerCall where
  | add (t : Nat)
  | remove (t : Nat)
  | find (cond : Nat → Bool)

/-- A manager, and since when each of its objects is managed. -/
structure Managing where
  manager : ManagerT
  since : Nat → Option Nat
  clock : Nat

namespace Managing

def init : Managing := ⟨⟨[]⟩, fun _ => none, 0⟩

/-- An object is managed from the call that adds it to the one that removes it. -/
def step (s : Managing) : ManagerCall → Managing
  | .add t =>
      { manager := (s.manager.add t).1
        since := if (s.since t).isSome then s.since
          else Function.update s.since t (some s.clock)
        clock := s.clock + 1 }
  | .remove t =>
      { manager := (s.manager.remove t).1
        since := Function.update s.since t none
        clock := s.clock + 1 }
  | .find _ => { s with clock := s.clock + 1 }

/-- The list holds each managed object once, in the order in which they were added. -/
def InOrder (s : Managing) : Prop := Listed s.manager.live s.since s.clock

/-- The call is answered as it should be. -/
def Answers (s : Managing) : ManagerCall → Prop
  | .add t => (s.manager.add t).2 = some t
  | .remove _ => True
  | .find cond => s.manager.find cond = s.manager.live.find? cond

/-- `add` of what is managed already, `find` of what is there. -/
def Ok (s : Managing) : ManagerCall → Prop
  | .add t => (s.since t).isSome
  | .remove _ => True
  | .find cond => s.manager.live = [] ∨ ∃ t ∈ s.manager.live, cond t

variable {s : Managing}

theorem inOrder_step (hs : s.InOrder) (c : ManagerCall) : (s.step c).InOrder := by
  cases c with
  | add t =>
      unfold InOrder step
      by_cases ht : t ∈ s.manager.live
      · have hsince := (hs.mem_iff t).mp ht
        simp only [ManagerT.add_of_mem ht, hsince, if_true]
        exact hs.tick
      · have hsince : ¬ (s.since t).isSome := fun h => ht ((hs.mem_iff t).mpr h)
        simp only [ManagerT.add_of_notMem ht, if_neg hsince]
        exact hs.push ht
  | remove t =>
      have hlive : (s.manager.remove t).1.live = s.manager.live.erase t := by
        by_cases ht : t ∈ s.manager.live
        · rw [ManagerT.remove_of_mem ht]
        · rw [ManagerT.remove_of_notMem ht, List.erase_of_not_mem ht]
      unfold InOrder step
      simp only [hlive]
      exact hs.erase t
  | find cond => exact hs.tick

theorem inOrder_init : init.InOrder := listed_nil

theorem inOrder_run (calls : List ManagerCall) : (calls.foldl step init).InOrder :=
  invariant inOrder_init (fun _ c hs => inOrder_step hs c) calls

theorem answers_iff (hs : s.InOrder) (c : ManagerCall) : s.Answers c ↔ s.Ok c := by
  cases c with
  | add t =>
      show (s.manager.add t).2 = some t ↔ (s.since t).isSome
      rw [← hs.mem_iff t]
      by_cases ht : t ∈ s.manager.live
      · simp [ManagerT.add_of_mem ht, ht]
      · simp [ManagerT.add_of_notMem ht, ht]
  | remove t => exact Iff.rfl
  | find cond => exact ManagerT.find_eq_find?_iff s.manager cond

/--
**The list is a set in order of insertion; not all answers are right.**

Throughout every run each managed object is in the list once, in order. A call is
answered rightly exactly when it adds what is managed already, or looks for something
that is there or in an empty list.
-/
theorem managerT_iff (calls : List ManagerCall) :
    AllStates step InOrder init calls ∧
    (∀ c, (calls.foldl step init).Answers c ↔ (calls.foldl step init).Ok c) ∧
    (AllSteps step Answers init calls ↔ AllSteps step Ok init calls) := by
  refine ⟨?_, answers_iff (inOrder_run calls), ?_⟩
  · refine allStates_iff.mpr ?_
    intro pre _ _
    exact inOrder_run pre
  · exact allSteps_congr inOrder_init (fun _ c hs => inOrder_step hs c)
      (fun _ c hs => answers_iff hs c) calls

/-- The first object added: null comes back, and a search for something else finds it. -/
theorem not_managerT :
    let m := ((⟨[]⟩ : ManagerT).add 0).1
    (((⟨[]⟩ : ManagerT).add 0).2 = none ∧ m.live = [0]) ∧
      m.live.find? (fun _ => false) = none ∧ m.find (fun _ => false) = some 0 := by decide

end Managing

end NanomsgDemo.Net

import NanomsgDemo.Sql.SQLConnPool

/-!
# Recycling connections

`recycleConnection` takes a connection out of `_working_pool`, wherever it is there, and
puts it to the waiting ones, whether it was there or not. So a connection that is
recycled twice waits twice, and is lent to two borrowers.

The runs here are of all the methods of the pool in any order, and recycle what they like.
-/

namespace NanomsgDemo.Sql

open Net (Ptr)
open Runs Recycling

namespace SQLConnPool

variable {p : SQLConnPool} {con : Nat}

/-- The connection is recycled any number of times. -/
def recycleTimes (p : SQLConnPool) (con : Nat) : Nat → SQLConnPool
  | 0 => p
  | n + 1 => (p.recycleConnection (some con)).recycleTimes con n

/-- Both lists are as they were. -/
def SameLists (p q : SQLConnPool) : Prop :=
  q.workPool = p.workPool ∧ q.workingPool = p.workingPool

/-- Whatever is recycled waits afterwards, once more than before. -/
theorem not_sameLists_recycle (p : SQLConnPool) (con : Nat) :
    ¬ SameLists p (p.recycleConnection (some con)) := by
  intro h
  have hwork : p.workPool ++ [con] = p.workPool := h.1
  have hlen := congrArg List.length hwork
  simp at hlen

end SQLConnPool

namespace Lending

/-- A call of any method of the pool; most are those that lend and take back. -/
inductive Method where
  | createConnPool (hostName userName password schema : String) (maxsize : Int32)
      (driver : Bool) (connects : Nat → Connect)
  | call (c : Call)
  | destoryConnPool

/-- A new pool, before `createConnPool`. -/
def init : Lending := ⟨.init, [], false⟩

/-- A call of a method. What is destroyed is not lent any more. -/
def perform (s : Lending) (m : Method) : Lending :=
  if s.halted then s
  else
    match m with
    | .createConnPool hostName userName password schema maxsize driver connects =>
        { s with pool := (s.pool.createConnPool hostName userName password schema maxsize driver
            connects).1 }
    | .call c => s.step c
    | .destoryConnPool =>
        { s with
          pool := s.pool.destoryConnPool.1
          lent := s.lent.filter fun l => l.2 ∉ s.pool.destoryConnPool.2 }

/-- What is not lent can be recycled any number of times without an effect. -/
def IgnoresStrangers (s : Lending) : Method → Prop
  | .call (.recycleConnection (some con)) => con ∉ s.pool.workingPool →
      ∀ n, SQLConnPool.SameLists s.pool (s.pool.recycleTimes con n)
  | _ => True

/-- No connection is lent to two borrowers. -/
def OneBorrower (s : Lending) : Prop := (s.lent.map Prod.snd).Nodup

/-- What is recycled is in `_working_pool`, or null. -/
def RecyclesLent (s : Lending) : Method → Prop
  | .call (.recycleConnection (some con)) => con ∈ s.pool.workingPool
  | _ => True

/-- The connections of the pool are apart, and those in `_working_pool` are the lent ones. -/
structure Apart (s : Lending) : Prop where
  within : ∃ n, s.pool.Within n
  lent : s.pool.workingPool = s.lent.map Prod.snd

variable {s : Lending}

theorem apart_init : init.Apart :=
  ⟨⟨0, List.nodup_nil, fun _ h => absurd h List.not_mem_nil, Nat.le_refl 0⟩, rfl⟩

theorem Apart.createConnPool (ha : s.Apart) (hostName userName password schema : String)
    (maxsize : Int32) (driver : Bool) (connects : Nat → Connect) :
    Apart { s with pool := (s.pool.createConnPool hostName userName password schema maxsize driver
      connects).1 } := by
  obtain ⟨n, hw⟩ := ha.within
  cases driver with
  | false => exact ⟨⟨n, hw.move (List.Perm.refl _) rfl⟩, ha.lent⟩
  | true =>
      have hw' : SQLConnPool.Within { s.pool with
          maxsize, hostname := hostName, username := userName, password, schema,
          driver := true } n := hw.move (List.Perm.refl _) rfl
      obtain ⟨hfilled, _, hworking⟩ :=
        SQLConnPool.within_initConnection hw' (maxsize / 2) connects
      exact ⟨⟨_, hfilled⟩, hworking.trans ha.lent⟩

theorem Apart.destoryConnPool (ha : s.Apart) :
    Apart { s with
      pool := s.pool.destoryConnPool.1
      lent := s.lent.filter fun l => l.2 ∉ s.pool.destoryConnPool.2 } := by
  refine ⟨⟨0, List.nodup_nil, fun _ h => absurd h List.not_mem_nil, Nat.le_refl 0⟩, ?_⟩
  -- all that is lent is in `_working_pool`
  have hall : (s.lent.filter fun l => l.2 ∉ s.pool.destoryConnPool.2) = [] := by
    refine List.filter_eq_nil_iff.mpr fun l hl => ?_
    have hworking : l.2 ∈ s.pool.workingPool := by
      rw [ha.lent]
      exact List.mem_map_of_mem hl
    have hgone : l.2 ∈ s.pool.destoryConnPool.2 := List.mem_append_right _ hworking
    simpa using hgone
  rw [hall]
  rfl

theorem apart_perform (s : Lending) (m : Method) (ha : s.Apart) (hm : s.RecyclesLent m) :
    (s.perform m).Apart := by
  unfold perform
  split
  · exact ha
  · rename_i hrun
    cases m with
    | createConnPool => exact ha.createConnPool ..
    | destoryConnPool => exact ha.destoryConnPool
    | call c =>
        refine ⟨?_, lent_step ha.lent c⟩
        obtain ⟨n, hw⟩ := ha.within
        show ∃ n, (s.step c).pool.Within n
        unfold step
        rw [if_neg hrun]
        cases c with
        | getConnection thread closed connect =>
            -- a connection may come in addition, so there is to be room for one more
            have hmore : s.pool.Within (n + 1) := hw.mono (Nat.le_succ_of_le hw.bound)
            have hroom : s.pool.workingPool.length < n + 1 := by
              have := hw.bound
              rw [SQLConnPool.all, List.length_append] at this
              omega
            exact ⟨n + 1, SQLConnPool.within_getConnection hmore (fun _ _ => hroom) closed connect⟩
        | recycleConnection conn =>
            cases conn with
            | none => exact ⟨n, hw⟩
            | some con => exact ⟨n, SQLConnPool.within_recycleConnection hw hm⟩

theorem Apart.oneBorrower (ha : s.Apart) : s.OneBorrower := by
  obtain ⟨n, hw⟩ := ha.within
  unfold OneBorrower
  rw [← ha.lent]
  exact (List.nodup_append.mp hw.nodup).2.1

/-- **One call.** A stranger is never ignored. -/
theorem ignoresStrangers_iff (s : Lending) (m : Method) :
    s.IgnoresStrangers m ↔ s.RecyclesLent m := by
  rcases m with _ | (_ | (_ | con)) | _
  case call.recycleConnection.some =>
    refine ⟨fun h => ?_, fun h hout => absurd h hout⟩
    by_contra hout
    exact SQLConnPool.not_sameLists_recycle s.pool con (h hout 1)
  all_goals exact Iff.rfl

/--
**Recycling is safe exactly as long as nothing is recycled that is not lent.**

For every run of the methods of the pool: whatever is not lent can be recycled without an
effect, and no connection is lent to two borrowers, if and only if every connection that is
recycled is in `_working_pool` at that time.
-/
theorem ignores_and_oneBorrower_iff (methods : List Method) :
    AllSteps perform IgnoresStrangers init methods ∧ AllStates perform OneBorrower init methods ↔
      AllSteps perform RecyclesLent init methods := by
  have hsteps : AllSteps perform IgnoresStrangers init methods ↔
      AllSteps perform RecyclesLent init methods :=
    allSteps_congr (I := fun _ => True) trivial (fun _ _ _ => trivial)
      (fun s m _ => ignoresStrangers_iff s m) methods
  rw [hsteps]
  refine and_iff_left_of_imp fun hlent => ?_
  exact (allStates_of_allSteps apart_init apart_perform hlent).mono fun _ ha => ha.oneBorrower

/-- A connection is recycled twice, and lent to two threads. -/
theorem not_ignores_recycled_twice :
    let methods : List Method :=
      [.createConnPool "tcp://127.0.0.1:3306" "root" "" "test" 2 true
          fun _ => .connected .above true,
        .call (.getConnection 1 .no .failed), .call (.recycleConnection (some 0)),
        .call (.recycleConnection (some 0)), .call (.getConnection 1 .no .failed),
        .call (.getConnection 2 .no .failed)]
    ¬ AllSteps perform IgnoresStrangers init methods ∧
      (methods.foldl perform init).lent = [(1, 0), (2, 0)] := by
  refine ⟨fun h => ?_, by decide⟩
  have hsecond : _ ∈ ([] : List Nat) := (ignoresStrangers_iff _ _).mp h.2.2.2.1
  exact absurd hsecond List.not_mem_nil

end Lending

end NanomsgDemo.Sql

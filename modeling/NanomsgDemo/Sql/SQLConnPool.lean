import Mathlib.Algebra.Group.Int.Defs
import Mathlib.Algebra.GroupWithZero.Nat
import NanomsgDemo.Lib.Recycling
import NanomsgDemo.Lib.Runs
import NanomsgDemo.Net.SocketSession

/-!
# The connection pool

`libmysqlwarpper/SQLConnPool.cpp`: connections wait in `_work_pool` and are lent
out of `_working_pool`. The methods hold `_lock`, so a run is a list of whole
calls; what the driver and the connections answer comes with each call.

Only `_working_pool` is compared with `_maxsize`, but only when `_work_pool` is
empty. That is why the two lists together stay within the bound.
-/

namespace NanomsgDemo.Sql

open Net (Ptr)
open Runs Recycling

/-- What `driver->connect` and then `setSchema` do. -/
inductive Connect where
  | failed
  | connected (alloc : Allocator) (schemaSet : Bool)

/-- What `isClosed` of a connection does. -/
inductive IsClosed where
  | no
  | yes
  | threw
  deriving DecidableEq, Repr

/-- How a call ended: with a connection or null, with an exception, or on a null pointer. -/
inductive Lent where
  | returned (con : Ptr)
  | threw
  | undefined
  deriving DecidableEq, Repr

/-- The connection that was handed out, if one was. -/
def Lent.conns : Lent → List Nat
  | .returned con => con.toList
  | _ => []

/-- `SQLConnPool`, together with the connections its driver has made. -/
structure SQLConnPool where
  /-- `_driver` is not null. -/
  driver : Bool
  workPool : List Nat
  workingPool : List Nat
  maxsize : Int32
  hostname : String
  username : String
  password : String
  schema : String
  /-- The connections that have not been deleted. -/
  conns : List Nat
  /-- The schema a connection has been set to. -/
  schemaOf : Nat → Option String

namespace SQLConnPool

/-- `SQLConnPool::SQLConnPool`. -/
def init : SQLConnPool where
  driver := false
  workPool := []
  workingPool := []
  maxsize := 0
  hostname := ""
  username := ""
  password := ""
  schema := ""
  conns := []
  schemaOf := fun _ => none

/-- An `int` compared with a 64-bit `size_t`: it is converted, so a negative one is large. -/
def toSize (i : Int32) : Nat := (i.toInt % 2 ^ 64).toNat

/--
`SQLConnPool::createConnection`. A failure of `setSchema` is caught like one of
`connect`, after the connection has been made. The exceptions have texts that
`__catch_info`, the function of `Sql.catchInfo`, can report: it is left out here.
-/
def createConnection (p : SQLConnPool) : Connect → SQLConnPool × Ptr
  | .failed => (p, none)
  | .connected alloc schemaSet =>
      let con := alloc.addr p.conns
      ({ p with
          conns := p.conns ++ [con]
          schemaOf := Function.update p.schemaOf con (if schemaSet then some p.schema else none) },
        some con)

/-- A connection is put to the waiting ones; null is only reported. -/
def initOne (p : SQLConnPool) (connect : Connect) : SQLConnPool :=
  match p.createConnection connect with
  | (p, some conn) => { p with workPool := p.workPool ++ [conn] }
  | (p, none) => p

/-- `SQLConnPool::initConnection`: `connects` are the outcomes of its passes. -/
def initConnection (p : SQLConnPool) (maxConnectionCount : Int32) (connects : Nat → Connect) :
    SQLConnPool :=
  (List.range maxConnectionCount.toInt.toNat).foldl (fun p i => p.initOne (connects i)) p

/-- `SQLConnPool::createConnPool`: `driver` tells if `get_driver_instance` returned. -/
def createConnPool (p : SQLConnPool) (hostName userName password schema : String)
    (maxsize : Int32) (driver : Bool) (connects : Nat → Connect) : SQLConnPool × Int32 :=
  let p := { p with maxsize, hostname := hostName, username := userName, password, schema }
  if driver then ({ p with driver := true }.initConnection (maxsize / 2) connects, 0)
  else (p, -1)

/-- `_working_pool.push_back` of what was created, if it is a connection. -/
def lend (p : SQLConnPool) (connect : Connect) : SQLConnPool × Lent :=
  if p.driver then
    match p.createConnection connect with
    | (p, some con) => ({ p with workingPool := p.workingPool ++ [con] }, .returned (some con))
    | (p, none) => (p, .returned none)
  else (p, .undefined)    -- `_driver->connect`

/-- `SQLConnPool::getConnection`. -/
def getConnection (p : SQLConnPool) (closed : IsClosed) (connect : Connect) :
    SQLConnPool × Lent :=
  match p.workPool with
  | con :: rest =>
      let p := { p with workPool := rest }
      match closed with
      | .threw => (p, .threw)
      | .yes => { p with conns := p.conns.erase con }.lend connect
      | .no => ({ p with workingPool := p.workingPool ++ [con] }, .returned (some con))
  | [] => if p.workingPool.length < toSize p.maxsize then p.lend connect else (p, .returned none)

/-- `SQLConnPool::recycleConnection`. -/
def recycleConnection (p : SQLConnPool) (conn : Ptr) : SQLConnPool :=
  match conn with
  | none => p
  | some conn =>
      { p with
        workingPool := p.workingPool.filter (· != conn)
        workPool := p.workPool ++ [conn] }

/-- `SQLConnPool::destoryConnPool`, and the connections it closes and deletes. -/
def destoryConnPool (p : SQLConnPool) : SQLConnPool × List Nat :=
  ({ p with workPool := [], workingPool := [],
            conns := (p.workPool ++ p.workingPool).foldl List.erase p.conns },
    p.workPool ++ p.workingPool)

/-! ## The two lists -/

/-- The connections of the pool, waiting or lent. -/
def all (p : SQLConnPool) : List Nat := p.workPool ++ p.workingPool

/-- No connection is twice in the pool, each exists, and there are at most `n` of them. -/
structure Within (p : SQLConnPool) (n : Nat) : Prop where
  nodup : p.all.Nodup
  known : ∀ con ∈ p.all, con ∈ p.conns
  bound : p.all.length ≤ n

variable {p q : SQLConnPool} {n m : Nat} {con : Nat}

theorem Within.mono (h : p.Within n) (hm : p.all.length ≤ m) : p.Within m :=
  ⟨h.nodup, h.known, hm⟩

/-- Connections only change places. -/
theorem Within.move (h : p.Within n) (hall : q.all.Perm p.all) (hconns : q.conns = p.conns) :
    q.Within n where
  nodup := hall.nodup_iff.mpr h.nodup
  known := by
    intro con hcon
    rw [hconns]
    exact h.known con (hall.mem_iff.mp hcon)
  bound := hall.length_eq ▸ h.bound

/-- A connection that the driver has just made joins. -/
theorem Within.join (h : p.Within n) (alloc : Allocator)
    (hall : q.all.Perm (alloc.addr p.conns :: p.all))
    (hconns : q.conns = p.conns ++ [alloc.addr p.conns]) : q.Within (n + 1) where
  nodup := by
    refine hall.nodup_iff.mpr (List.nodup_cons.mpr ⟨?_, h.nodup⟩)
    intro hm
    exact alloc.fresh p.conns (h.known _ hm)
  known := by
    intro con hcon
    rw [hconns, List.mem_append, List.mem_singleton]
    rcases List.mem_cons.mp (hall.mem_iff.mp hcon) with hnew | hold
    · exact Or.inr hnew
    · exact Or.inl (h.known con hold)
  bound := by
    rw [hall.length_eq, List.length_cons]
    exact Nat.succ_le_succ h.bound

/-- The first waiting connection leaves; it may or may not be deleted. -/
theorem Within.leave (h : p.Within n) (hall : p.all = con :: q.all)
    (hconns : q.conns = p.conns ∨ q.conns = p.conns.erase con) : q.Within (n - 1) := by
  have hnodup := h.nodup
  have hbound := h.bound
  rw [hall] at hnodup hbound
  rcases List.nodup_cons.mp hnodup with ⟨hout, hrest⟩
  refine ⟨hrest, ?_, ?_⟩
  · intro c hc
    have hmem : c ∈ p.conns := h.known c (hall ▸ List.mem_cons_of_mem con hc)
    rcases hconns with hconns | hconns
    · rw [hconns]
      exact hmem
    · rw [hconns]
      exact (List.mem_erase_of_ne (a := c) (b := con) fun hcc => hout (hcc ▸ hc)).mpr hmem
  · rw [List.length_cons] at hbound
    omega

/-! ## What the methods do to them -/

theorem within_initOne (h : p.Within n) (c : Connect) : (p.initOne c).Within (n + 1) := by
  cases c with
  | failed => exact h.mono (Nat.le_succ_of_le h.bound)
  | connected alloc schemaSet =>
      refine h.join alloc ?_ rfl
      show (p.workPool ++ [alloc.addr p.conns] ++ p.workingPool).Perm _
      rw [List.append_assoc, List.singleton_append]
      exact List.perm_middle

theorem initOne_frame (p : SQLConnPool) (c : Connect) :
    (p.initOne c).maxsize = p.maxsize ∧ (p.initOne c).workingPool = p.workingPool := by
  cases c with
  | failed => exact ⟨rfl, rfl⟩
  | connected alloc schemaSet => exact ⟨rfl, rfl⟩

/-- Each pass of the loop adds one connection at most. -/
theorem within_initConnection (h : p.Within m) (count : Int32) (connects : Nat → Connect) :
    (p.initConnection count connects).Within (m + count.toInt.toNat) ∧
      (p.initConnection count connects).maxsize = p.maxsize ∧
      (p.initConnection count connects).workingPool = p.workingPool := by
  unfold initConnection
  induction count.toInt.toNat with
  | zero => exact ⟨h, rfl, rfl⟩
  | succ n ih =>
      rw [List.range_succ, List.foldl_append, List.foldl_cons, List.foldl_nil]
      rcases ih with ⟨hw, hmax, hworking⟩
      rcases initOne_frame _ (connects n) with ⟨hmax', hworking'⟩
      exact ⟨within_initOne hw _, hmax'.trans hmax, hworking'.trans hworking⟩

theorem within_lend (h : p.Within n) (c : Connect) : (p.lend c).1.Within (n + 1) := by
  have hsame : p.Within (n + 1) := h.mono (Nat.le_succ_of_le h.bound)
  unfold lend
  split
  · cases c with
    | failed => exact hsame
    | connected alloc schemaSet =>
        refine h.join alloc ?_ rfl
        show (p.workPool ++ (p.workingPool ++ [alloc.addr p.conns])).Perm _
        rw [← List.append_assoc]
        exact List.perm_append_singleton ..
  · exact hsame

/-- What is lent is added to `_working_pool`. -/
theorem lend_frame (p : SQLConnPool) (c : Connect) :
    (p.lend c).1.maxsize = p.maxsize ∧
      (p.lend c).1.workingPool = p.workingPool ++ (p.lend c).2.conns := by
  unfold lend
  split
  · cases c with
    | failed => exact ⟨rfl, (List.append_nil _).symm⟩
    | connected alloc schemaSet => exact ⟨rfl, rfl⟩
  · exact ⟨rfl, (List.append_nil _).symm⟩

theorem toSize_eq {i : Int32} (hi : 0 ≤ i.toInt) : toSize i = i.toInt.toNat := by
  have := i.toInt_lt
  unfold toSize
  rw [Int.emod_eq_of_lt hi (by omega)]

theorem half_le {i : Int32} (hi : 0 ≤ i.toInt) : (i / 2).toInt.toNat ≤ i.toInt.toNat := by
  have hlt := i.toInt_lt
  have htwo : (2 : Int32).toInt = 2 := rfl
  have hdiv : i.toInt.tdiv 2 = i.toInt / 2 := Int.tdiv_eq_ediv_of_nonneg hi
  have hmod : (i.toInt / 2).bmod (2 ^ 32) = i.toInt / 2 := Int.bmod_eq_of_le (by omega) (by omega)
  rw [Int32.toInt_div, htwo, hdiv, hmod]
  omega

/--
**`getConnection` keeps the pool within its bound**, and within any bound that leaves
room for the connection it creates when none is waiting. One that is created in place
of another needs no room.
-/
theorem within_getConnection (h : p.Within n)
    (hroom : p.workPool = [] → p.workingPool.length < toSize p.maxsize →
      p.workingPool.length < n) (closed : IsClosed) (c : Connect) :
    (p.getConnection closed c).1.Within n := by
  unfold getConnection
  split
  · rename_i con rest hwork
    have hall : p.all = con :: (rest ++ p.workingPool) := by rw [all, hwork, List.cons_append]
    have hpos : 0 < n := by
      have := h.bound
      rw [hall, List.length_cons] at this
      omega
    cases closed with
    | no =>
        refine h.move ?_ rfl
        show (rest ++ (p.workingPool ++ [con])).Perm p.all
        rw [hall, ← List.append_assoc]
        exact List.perm_append_singleton ..
    | yes =>
        have hgone : ({ p with workPool := rest, conns := p.conns.erase con } :
            SQLConnPool).Within (n - 1) := h.leave hall (Or.inr rfl)
        exact Nat.sub_add_cancel hpos ▸ within_lend hgone c
    | threw =>
        have hgone : ({ p with workPool := rest } : SQLConnPool).Within (n - 1) :=
          h.leave hall (Or.inl rfl)
        exact hgone.mono (Nat.le_trans hgone.bound (Nat.sub_le _ _))
  · rename_i hwork
    split
    · rename_i hlt
      have hlen : p.all.length = p.workingPool.length := by rw [all, hwork, List.nil_append]
      have hw := within_lend (h.mono (Nat.le_of_eq hlen)) c
      exact hw.mono (Nat.le_trans hw.bound (hroom hwork hlt))
    · exact h

/-- It adds what it hands out to `_working_pool`. -/
theorem getConnection_frame (p : SQLConnPool) (closed : IsClosed) (c : Connect) :
    (p.getConnection closed c).1.maxsize = p.maxsize ∧
      (p.getConnection closed c).1.workingPool =
        p.workingPool ++ (p.getConnection closed c).2.conns := by
  unfold getConnection
  split
  · cases closed with
    | no => exact ⟨rfl, rfl⟩
    | yes => exact lend_frame _ c
    | threw => exact ⟨rfl, (List.append_nil _).symm⟩
  · split
    · exact lend_frame p c
    · exact ⟨rfl, (List.append_nil _).symm⟩

/-- A connection that is lent goes back to the waiting ones. -/
theorem within_recycleConnection (h : p.Within n) (hcon : con ∈ p.workingPool) :
    (p.recycleConnection (some con)).Within n := by
  refine h.move ?_ rfl
  show (p.workPool ++ [con] ++ p.workingPool.filter (· != con)).Perm (p.workPool ++ p.workingPool)
  have hnodup : p.workingPool.Nodup := (List.nodup_append.mp h.nodup).2.1
  have hback : (con :: p.workingPool.erase con).Perm p.workingPool :=
    (List.perm_cons_erase hcon).symm
  rw [hnodup.erase_eq_filter] at hback
  rw [List.append_assoc, List.singleton_append]
  exact hback.append_left p.workPool

/-- `destoryConnPool` deletes every connection of the pool once, and no other. -/
theorem destoryConnPool_deletes_once (h : p.Within n) :
    p.destoryConnPool.2.Nodup ∧ (∀ con ∈ p.destoryConnPool.2, con ∈ p.conns) ∧
      ∀ con ∈ p.workPool ++ p.workingPool, con ∈ p.destoryConnPool.2 :=
  ⟨h.nodup, h.known, fun _ hcon => hcon⟩

end SQLConnPool

/-! ## Runs -/

/-- The pool, who has been lent which connection, and whether a null pointer has been used. -/
structure Lending where
  pool : SQLConnPool
  lent : List (Nat × Nat)
  halted : Bool

namespace Lending

/-- A call of one of the methods by a thread. -/
inductive Call where
  | getConnection (thread : Nat) (closed : IsClosed) (connect : Connect)
  | recycleConnection (conn : Ptr)

/-- The pool after `createConnPool`. -/
def start (hostName userName password schema : String) (maxsize : Int32) (driver : Bool)
    (connects : Nat → Connect) : Lending where
  pool := (SQLConnPool.init.createConnPool hostName userName password schema maxsize driver
    connects).1
  lent := []
  halted := false

def step (s : Lending) (c : Call) : Lending :=
  if s.halted then s
  else
    match c with
    | .getConnection thread closed connect =>
        let r := s.pool.getConnection closed connect
        { pool := r.1
          lent := s.lent ++ r.2.conns.map fun con => (thread, con)
          halted := r.2 = .undefined }
    | .recycleConnection conn =>
        { s with
          pool := s.pool.recycleConnection conn
          lent := s.lent.filter fun l => some l.2 != conn }

/-- What is recycled is a connection that is lent at the time, or null. -/
def Admissible (s : Lending) : Call → Prop
  | .getConnection .. => True
  | .recycleConnection none => True
  | .recycleConnection (some conn) => conn ∈ s.lent.map Prod.snd

instance (s : Lending) (c : Call) : Decidable (s.Admissible c) := by
  unfold Admissible
  split <;> infer_instance

/-- The pool keeps its connections apart, within the bound, and lends none twice. -/
structure Exclusive (s : Lending) : Prop where
  work_nodup : s.pool.workPool.Nodup
  working_nodup : s.pool.workingPool.Nodup
  disjoint : ∀ con ∈ s.pool.workPool, con ∉ s.pool.workingPool
  bound : (s.pool.workPool.length + s.pool.workingPool.length : Int) ≤ s.pool.maxsize.toInt
  lent : ∀ con, con ∈ s.pool.workingPool ↔ ∃ thread, (thread, con) ∈ s.lent
  one_borrower : (s.lent.map Prod.snd).Nodup

/-- The pool within its bound, with the lent connections in `_working_pool`. -/
structure Inv (s : Lending) : Prop where
  max_nonneg : 0 ≤ s.pool.maxsize.toInt
  within : s.pool.Within s.pool.maxsize.toInt.toNat
  lent : s.pool.workingPool = s.lent.map Prod.snd

variable {s : Lending}

theorem inv_start (hostName userName password schema : String) {maxsize : Int32}
    (hmax : 0 ≤ maxsize) (driver : Bool) (connects : Nat → Connect) :
    (start hostName userName password schema maxsize driver connects).Inv := by
  have hmax : 0 ≤ maxsize.toInt := Int32.le_iff_toInt_le.mp hmax
  have hempty : ∀ p : SQLConnPool, p.all = [] → p.Within 0 := by
    intro p hp
    refine ⟨hp ▸ List.nodup_nil, fun con hcon => ?_, hp ▸ Nat.le_refl 0⟩
    rw [hp] at hcon
    exact absurd hcon List.not_mem_nil
  cases driver with
  | false => exact ⟨hmax, (hempty _ rfl).mono (Nat.zero_le _), rfl⟩
  | true =>
      rcases SQLConnPool.within_initConnection (hempty { SQLConnPool.init with
          maxsize, hostname := hostName, username := userName, password, schema, driver := true }
        rfl) (maxsize / 2) connects with ⟨hw, hm, hworking⟩
      rw [Nat.zero_add] at hw
      have hbound := Nat.le_trans hw.bound (SQLConnPool.half_le hmax)
      exact ⟨hm.symm ▸ hmax, hm.symm ▸ hw.mono hbound, hworking⟩

/-- Each call writes down what it lends and what it takes back. -/
theorem lent_step (hlent : s.pool.workingPool = s.lent.map Prod.snd) (c : Call) :
    (s.step c).pool.workingPool = (s.step c).lent.map Prod.snd := by
  unfold step
  split
  · exact hlent
  · cases c with
    | getConnection thread closed connect =>
        show (s.pool.getConnection closed connect).1.workingPool =
          (s.lent ++ (s.pool.getConnection closed connect).2.conns.map fun con =>
            (thread, con)).map Prod.snd
        rw [(SQLConnPool.getConnection_frame s.pool closed connect).2, List.map_append, hlent,
          List.map_map]
        congr 1
        exact (List.map_id _).symm
    | recycleConnection conn =>
        cases conn with
        | none =>
            have hall : s.lent.filter (fun l => some l.2 != none) = s.lent :=
              List.filter_eq_self.mpr fun _ _ => rfl
            exact hlent.trans (congrArg _ hall.symm)
        | some con =>
            show s.pool.workingPool.filter (· != con) =
              (s.lent.filter fun l => some l.2 != some con).map Prod.snd
            rw [hlent, List.filter_map]
            congr 1

theorem inv_step (hi : s.Inv) (c : Call) (ha : s.Admissible c) : (s.step c).Inv := by
  have hlent := lent_step hi.lent c
  unfold step at hlent ⊢
  split at hlent
  · rename_i hhalt
    rw [if_pos hhalt]
    exact hi
  · rename_i hhalt
    rw [if_neg hhalt]
    cases c with
    | getConnection thread closed connect =>
        have hroom : s.pool.workPool = [] →
            s.pool.workingPool.length < SQLConnPool.toSize s.pool.maxsize →
            s.pool.workingPool.length < s.pool.maxsize.toInt.toNat := by
          intro _ hlt
          rwa [SQLConnPool.toSize_eq hi.max_nonneg] at hlt
        have hw := SQLConnPool.within_getConnection hi.within hroom closed connect
        have hm := (SQLConnPool.getConnection_frame s.pool closed connect).1
        exact ⟨hm.symm ▸ hi.max_nonneg, hm.symm ▸ hw, hlent⟩
    | recycleConnection conn =>
        cases conn with
        | none => exact ⟨hi.max_nonneg, hi.within, hlent⟩
        | some con =>
            have hcon : con ∈ s.pool.workingPool := hi.lent ▸ ha
            exact ⟨hi.max_nonneg, SQLConnPool.within_recycleConnection hi.within hcon, hlent⟩

theorem Inv.exclusive (hi : s.Inv) : s.Exclusive := by
  have hsep : Separate s.pool.workPool s.pool.workingPool := hi.within.nodup
  refine ⟨hsep.left, hsep.right, fun con hcon => hsep.notMem_right hcon, ?_, ?_, ?_⟩
  · have hbound := hi.within.bound
    have hmax := hi.max_nonneg
    rw [SQLConnPool.all, List.length_append] at hbound
    omega
  · intro con
    rw [hi.lent, List.mem_map]
    constructor
    · intro h
      rcases h with ⟨l, hl, hcon⟩
      exact ⟨l.1, hcon ▸ hl⟩
    · intro h
      rcases h with ⟨thread, hl⟩
      exact ⟨(thread, con), hl, rfl⟩
  · rw [← hi.lent]
    exact hsep.right

/--
**A connection has one borrower at a time, and the pool stays within its bound.**

This holds throughout every run of calls by any threads, whatever the driver and
the connections answer, as long as only lent connections are recycled.
-/
theorem pool_exclusive {hostName userName password schema : String} {maxsize : Int32}
    {driver : Bool} {connects : Nat → Connect} (hmax : 0 ≤ maxsize) {calls : List Call}
    (h : AllSteps step Admissible
      (start hostName userName password schema maxsize driver connects) calls) :
    AllStates step Exclusive
      (start hostName userName password schema maxsize driver connects) calls :=
  (allStates_of_allSteps (inv_start hostName userName password schema hmax driver connects)
    (fun _ c hi ha => inv_step hi c ha) h).mono fun _ hi => hi.exclusive

/-- Two threads share a pool of two; one connection is replaced, another could not be made. -/
theorem pool_exclusive_two :
    AllStates step Exclusive
      (start "tcp://127.0.0.1:3306" "root" "" "test" 2 true fun _ => .connected .above true)
      [.getConnection 1 .yes (.connected .above false), .getConnection 2 .no .failed,
        .recycleConnection (some 0), .getConnection 2 .no .failed, .recycleConnection none] :=
  pool_exclusive (by decide) (by decide)

end Lending

end NanomsgDemo.Sql

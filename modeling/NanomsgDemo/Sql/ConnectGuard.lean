import NanomsgDemo.Sql.ConnectionReuse
import NanomsgDemo.Sql.UsableConnections

/-!
# The `CONNECT` guard

A `CONNECT` borrows a connection for as long as it lives. Its constructor takes what
`getConnection` returns and goes through it to the driver, whether it is null or not. Its
destructor gives the connection back first, and then goes through it once more.

The guards of several threads are interleaved here wherever `_lock` is not held: before
and after the calls of the pool, and around every use of the connection. Between them
others call the pool as they like, without a guard.
-/

namespace NanomsgDemo.Sql

open Net (Ptr)
open Runs Recycling

/-- Not a `connect` that throws. -/
def Connect.Opens : Connect → Prop
  | .connected .. => True
  | .failed => False

instance : DecidablePred Connect.Opens
  | .connected .. => isTrue trivial
  | .failed => isFalse id

namespace SQLConnPool

variable {p : SQLConnPool}

/--
There is a connection to hand out: one waits, or another may be made; and where one is to
be made, it can be.
-/
def Available (p : SQLConnPool) (closed : IsClosed) (connect : Connect) : Prop :=
  (p.workPool = [] → p.workingPool.length < toSize p.maxsize) ∧
    (p.Creates closed → connect.Opens)

instance (p : SQLConnPool) (closed : IsClosed) (connect : Connect) :
    Decidable (p.Available closed connect) :=
  inferInstanceAs (Decidable (_ ∧ _))

theorem lend_ne_null_iff (p : SQLConnPool) (c : Connect) :
    (p.lend c).2 ≠ .returned none ↔ (p.driver = true → c.Opens) := by
  unfold lend
  split
  · rename_i hdriver
    rw [forall_prop_of_true hdriver]
    cases c with
    | failed => exact iff_of_false (fun h => h rfl) (fun h => h)
    | connected alloc schemaSet => exact iff_of_true (fun h => nomatch h) trivial
  · rename_i hdriver
    exact iff_of_true (fun h => nomatch h) fun hd => absurd hd hdriver

/-- **`getConnection` returns null exactly if there is nothing to hand out.** -/
theorem getConnection_ne_null_iff (p : SQLConnPool) (closed : IsClosed) (c : Connect) :
    (p.getConnection closed c).2 ≠ .returned none ↔ p.Available closed c := by
  unfold getConnection Available Creates
  rcases hwork : p.workPool with _ | ⟨con, rest⟩
  · rw [forall_prop_of_true rfl]
    by_cases hroom : p.workingPool.length < toSize p.maxsize
    · rw [if_pos hroom, lend_ne_null_iff, and_iff_right hroom,
        and_iff_left (Or.inr ⟨rfl, hroom⟩)]
    · rw [if_neg hroom]
      exact iff_of_false (fun h => h rfl) fun h => hroom h.1
  · have hroom : con :: rest = [] → p.workingPool.length < toSize p.maxsize :=
      fun h => nomatch h
    have hnone : ∀ closed : IsClosed, closed ≠ .yes →
        ¬ (p.driver = true ∧ (con :: rest ≠ [] ∧ closed = .yes ∨
          con :: rest = [] ∧ p.workingPool.length < toSize p.maxsize)) := by
      rintro closed hclosed ⟨_, ⟨_, hyes⟩ | ⟨hempty, _⟩⟩
      · exact hclosed hyes
      · exact List.cons_ne_nil con rest hempty
    rw [and_iff_right hroom]
    cases closed with
    | yes =>
        rw [and_iff_left (Or.inl ⟨List.cons_ne_nil con rest, rfl⟩)]
        exact lend_ne_null_iff _ c
    | no => exact iff_of_true (fun h => nomatch h) fun h => absurd h (hnone .no (by decide))
    | threw => exact iff_of_true (fun h => nomatch h) fun h => absurd h (hnone .threw (by decide))

end SQLConnPool

/-- A guard: not there, with what `getConnection` returned, constructed, or half destroyed. -/
inductive CONNECT where
  | absent
  | got (conn : Ptr)
  | constructed (conn : Ptr)
  | recycled (conn : Ptr)
  deriving DecidableEq, Repr

/-- The guard has been lent `conn`, and has not returned it. -/
def CONNECT.Holds : CONNECT → Ptr → Prop
  | .got conn, con => conn = con
  | .constructed conn, con => conn = con
  | .absent, _ => False
  | .recycled _, _ => False

/-- The pool with what it has lent to which guard, and the guards. -/
structure Guarding where
  lending : Lending
  guards : Nat → CONNECT

namespace Guarding

/--
The two halves of the constructor and of the destructor of a guard, and its `operator->`;
or a call of the pool by others.
-/
inductive Act where
  | getConnection (guard : Nat) (closed : IsClosed) (connect : Connect)
  | threadInit (guard : Nat)
  | use (guard : Nat)
  | recycleConnection (guard : Nat)
  | threadEnd (guard : Nat)
  | other (m : Lending.Method)

/-- A new pool, without guards. -/
def start : Guarding where
  lending := .init
  guards := fun _ => .absent

/-- The number under which a guard borrows; the odd ones are those of others. -/
def borrower (guard : Nat) : Nat := 2 * guard

/-- A call by others, with the number under which they borrow. -/
def outside : Lending.Method → Lending.Method
  | .call (.getConnection thread closed connect) =>
      .call (.getConnection (2 * thread + 1) closed connect)
  | m => m

/-- The guard goes through its connection. -/
def touch (s : Guarding) (guard : Nat) (conn : Ptr) (next : CONNECT) : Guarding :=
  match conn with
  | some _ => { s with guards := Function.update s.guards guard next }
  | none => { s with lending := { s.lending with halted := true } }

def step (s : Guarding) (a : Act) : Guarding :=
  if s.lending.halted then s
  else
    match a with
    | .getConnection g closed connect =>
        match s.guards g, (s.lending.pool.getConnection closed connect).2 with
        | .absent, .returned conn =>
            { lending := s.lending.step (.getConnection (borrower g) closed connect)
              guards := Function.update s.guards g (.got conn) }
        -- the constructor throws: there is no guard
        | .absent, _ =>
            { s with lending := s.lending.step (.getConnection (borrower g) closed connect) }
        | _, _ => s
    | .threadInit g =>
        match s.guards g with
        | .got conn => s.touch g conn (.constructed conn)
        | _ => s
    | .use g =>
        match s.guards g with
        | .constructed conn => s.touch g conn (.constructed conn)
        | _ => s
    | .recycleConnection g =>
        match s.guards g with
        | .constructed conn =>
            { lending := s.lending.step (.recycleConnection conn)
              guards := Function.update s.guards g (.recycled conn) }
        | _ => s
    | .threadEnd g =>
        match s.guards g with
        | .recycled conn => s.touch g conn .absent
        | _ => s
    | .other m => { s with lending := s.lending.perform (outside m) }

/-- The connection is lent to the guard, and to nobody else. -/
def MayTouch (s : Guarding) (g : Nat) (conn : Ptr) : Prop :=
  ∃ con, conn = some con ∧ (borrower g, con) ∈ s.lending.lent ∧
    ∀ t, (t, con) ∈ s.lending.lent → t = borrower g

/-- Others return what has been lent to them, and destroy the pool when no guard has any of it. -/
def Orderly (s : Guarding) : Act → Prop
  | .other (.call (.recycleConnection (some con))) => ∃ t, (2 * t + 1, con) ∈ s.lending.lent
  | .other .destoryConnPool => ∀ g con, (borrower g, con) ∉ s.lending.lent
  | _ => True

/--
What a guard goes through is lent to it and to no other. Its constructor goes through
whatever it gets, so that this is not to be null.
-/
def Safe (s : Guarding) (a : Act) : Prop :=
  s.lending.halted = false →
    match a with
    | .getConnection g closed connect =>
        s.guards g = .absent → (s.lending.pool.getConnection closed connect).2 ≠ .returned none
    | .threadInit g => ∀ conn, s.guards g = .got conn → s.MayTouch g conn
    | .use g => ∀ conn, s.guards g = .constructed conn → s.MayTouch g conn
    | .recycleConnection _ => True
    | .threadEnd g => ∀ conn, s.guards g = .recycled conn → s.MayTouch g conn
    | .other _ => True

/-- Each new guard finds a connection, and no destructor gets past its `recycleConnection`. -/
def Careful (s : Guarding) (a : Act) : Prop :=
  s.lending.halted = false →
    match a with
    | .getConnection g closed connect =>
        s.guards g = .absent → s.lending.pool.Available closed connect
    | .threadEnd g => ∀ conn, s.guards g ≠ .recycled conn
    | _ => True

/-- The guards hold what is lent, and none of them holds null. -/
structure Inv (s : Guarding) : Prop where
  apart : s.lending.Apart
  lent : ∀ g con, (borrower g, con) ∈ s.lending.lent ↔ (s.guards g).Holds (some con)
  notNull : ∀ g, ¬ (s.guards g).Holds none

variable {s : Guarding} {g : Nat}

theorem borrower_inj {t : Nat} : borrower t = borrower g ↔ t = g := by
  unfold borrower
  omega

theorem perform_call (h : s.lending.halted = false) (c : Lending.Call) :
    s.lending.perform (.call c) = s.lending.step c := by
  rw [Lending.perform, h]
  rfl

/-- What is lent to a guard is lent to no other. -/
theorem Inv.mayTouch (hi : s.Inv) {conn : Ptr} (h : (s.guards g).Holds conn) :
    s.MayTouch g conn := by
  cases conn with
  | none => exact absurd h (hi.notNull g)
  | some con =>
      have hmine : (borrower g, con) ∈ s.lending.lent := (hi.lent g con).mpr h
      refine ⟨con, rfl, hmine, fun t ht => ?_⟩
      have hone : (s.lending.lent.map Prod.snd).Nodup := hi.apart.oneBorrower
      exact congrArg Prod.fst (List.inj_on_of_nodup_map hone ht hmine rfl)

/-- One guard goes on, and at most its own lending changes. -/
theorem Inv.update (hi : s.Inv) {l : Lending} {next : CONNECT} (hap : l.Apart)
    (hmine : ∀ con, (borrower g, con) ∈ l.lent ↔ next.Holds (some con))
    (hnext : ¬ next.Holds none)
    (hothers : ∀ t, t ≠ g → ∀ con,
      (borrower t, con) ∈ l.lent ↔ (borrower t, con) ∈ s.lending.lent) :
    Inv { lending := l, guards := Function.update s.guards g next } where
  apart := hap
  lent := by
    intro t con
    show (borrower t, con) ∈ l.lent ↔ (Function.update s.guards g next t).Holds (some con)
    by_cases ht : t = g
    · subst ht
      rw [Function.update_self]
      exact hmine con
    · rw [Function.update_of_ne ht, hothers t ht con]
      exact hi.lent t con
  notNull := by
    intro t
    show ¬ (Function.update s.guards g next t).Holds none
    by_cases ht : t = g
    · subst ht
      rwa [Function.update_self]
    · rw [Function.update_of_ne ht]
      exact hi.notNull t

/-- A guard that goes through its connection keeps it. -/
theorem Inv.touch (hi : s.Inv) {conn : Ptr} {next : CONNECT} (h : (s.guards g).Holds conn)
    (hnext : ∀ con, next.Holds con ↔ (s.guards g).Holds con) : (s.touch g conn next).Inv := by
  cases conn with
  | none => exact absurd h (hi.notNull g)
  | some con =>
      exact hi.update hi.apart (fun c => (hi.lent g c).trans (hnext (some c)).symm)
        (fun hn => hi.notNull g ((hnext none).mp hn)) fun _ _ _ => Iff.rfl

/-- The constructor borrows. -/
theorem Inv.getConnection (hi : s.Inv) (hhalt : s.lending.halted = false)
    (hg : s.guards g = .absent) {closed : IsClosed} {connect : Connect}
    (hc : s.lending.pool.Available closed connect) :
    (s.step (.getConnection g closed connect)).Inv := by
  have hap : (s.lending.step (.getConnection (borrower g) closed connect)).Apart :=
    perform_call hhalt _ ▸ Lending.apart_perform s.lending (.call _) hi.apart trivial
  have hlent : (s.lending.step (.getConnection (borrower g) closed connect)).lent =
      s.lending.lent ++ (s.lending.pool.getConnection closed connect).2.conns.map fun con =>
        (borrower g, con) := by
    rw [Lending.step, hhalt]
    rfl
  have hnew : ∀ con, (borrower g, con) ∉ s.lending.lent := by
    intro con hin
    have := (hi.lent g con).mp hin
    rw [hg] at this
    exact this
  unfold step
  rw [hhalt, if_neg Bool.false_ne_true]
  rcases hr : (s.lending.pool.getConnection closed connect).2 with (_ | con) | _ | _
  · exact absurd hr ((SQLConnPool.getConnection_ne_null_iff _ _ _).mpr hc)
  all_goals rw [hr] at hlent; simp only [hg, hr]
  · refine hi.update hap ?_ (fun h => nomatch h) ?_
    · intro c
      rw [hlent]
      show (borrower g, c) ∈ s.lending.lent ++ [(borrower g, con)] ↔ some con = some c
      simp [hnew c, eq_comm]
    · intro t ht c
      rw [hlent]
      show (borrower t, c) ∈ s.lending.lent ++ [(borrower g, con)] ↔ _
      simp [borrower_inj, ht]
  -- the constructor throws, or the driver is null: nothing is lent
  all_goals
    have hsame : (s.lending.step (.getConnection (borrower g) closed connect)).lent =
        s.lending.lent := hlent.trans (List.append_nil _)
    exact ⟨hap, fun t c => hsame ▸ hi.lent t c, hi.notNull⟩

/-- The destructor returns. -/
theorem Inv.recycleConnection (hi : s.Inv) (hhalt : s.lending.halted = false) {conn : Ptr}
    (hg : s.guards g = .constructed conn) : (s.step (.recycleConnection g)).Inv := by
  have hholds : (s.guards g).Holds conn := by rw [hg]; rfl
  obtain ⟨con, rfl, hmine, hothers⟩ := hi.mayTouch hholds
  have hlent : (s.lending.step (.recycleConnection (some con))).lent =
      s.lending.lent.filter fun l => some l.2 != some con := by
    rw [Lending.step, hhalt]
    rfl
  have hworking : con ∈ s.lending.pool.workingPool := by
    rw [hi.apart.lent]
    exact List.mem_map_of_mem hmine
  have hap : (s.lending.step (.recycleConnection (some con))).Apart :=
    perform_call hhalt _ ▸ Lending.apart_perform s.lending (.call _) hi.apart hworking
  unfold step
  rw [hhalt, if_neg Bool.false_ne_true]
  simp only [hg]
  refine hi.update hap ?_ (fun h => h) ?_
  · intro c
    refine iff_of_false (fun hin => ?_) (fun h => h)
    rw [hlent, List.mem_filter] at hin
    have hc : CONNECT.Holds (.constructed (some con)) (some c) := hg ▸ (hi.lent g c).mp hin.1
    obtain rfl : con = c := Option.some.inj hc
    simp at hin
  · intro t ht c
    rw [hlent, List.mem_filter]
    refine and_iff_left_of_imp fun hin => ?_
    have hne : c ≠ con := fun hc => ht (borrower_inj.mp (hothers (borrower t) (hc ▸ hin)))
    simpa using hne

/-- Others recycle what is in `_working_pool`. -/
theorem recyclesLent_outside (hi : s.Inv) {m : Lending.Method} (ho : s.Orderly (.other m)) :
    s.lending.RecyclesLent (outside m) := by
  rcases m with _ | (_ | (_ | con)) | _
  case call.recycleConnection.some =>
    obtain ⟨t, ht⟩ := ho
    show con ∈ s.lending.pool.workingPool
    rw [hi.apart.lent]
    exact List.mem_map_of_mem ht
  all_goals exact trivial

/-- Orderly calls of others leave the guards what has been lent to them. -/
theorem mem_lent_outside (hi : s.Inv) {m : Lending.Method} (ho : s.Orderly (.other m))
    (g con : Nat) : (borrower g, con) ∈ (s.lending.perform (outside m)).lent ↔
      (borrower g, con) ∈ s.lending.lent := by
  unfold Lending.perform
  rcases hhalt : s.lending.halted with _ | _
  case true => exact Iff.rfl
  rw [if_neg Bool.false_ne_true]
  rcases m with _ | (⟨thread, closed, connect⟩ | (_ | returned)) | _
  case createConnPool => exact Iff.rfl
  case destoryConnPool =>
    refine iff_of_false (fun hin => ?_) (ho g con)
    exact ho g con (List.mem_of_mem_filter hin)
  case call.getConnection =>
    have hodd : 2 * thread + 1 ≠ borrower g := by unfold borrower; omega
    simp only [outside, Lending.step, hhalt, Bool.false_eq_true, if_false, List.mem_append,
      List.mem_map, Prod.mk.injEq]
    refine or_iff_left ?_
    rintro ⟨_, _, hsame, _⟩
    exact hodd hsame
  case call.recycleConnection.none => simp [outside, Lending.step, hhalt]
  case call.recycleConnection.some =>
    obtain ⟨t, ht⟩ := ho
    simp only [outside, Lending.step, hhalt, Bool.false_eq_true, if_false, List.mem_filter]
    refine and_iff_left_of_imp fun hin => ?_
    -- it has been lent to others, so that no guard has it
    have hne : con ≠ returned := by
      rintro rfl
      have hone : (s.lending.lent.map Prod.snd).Nodup := hi.apart.oneBorrower
      have hsame : borrower g = 2 * t + 1 :=
        congrArg Prod.fst (List.inj_on_of_nodup_map hone hin ht rfl)
      unfold borrower at hsame
      omega
    simpa using hne

theorem Inv.other (hi : s.Inv) {m : Lending.Method} (ho : s.Orderly (.other m)) :
    Inv { s with lending := s.lending.perform (outside m) } where
  apart := Lending.apart_perform s.lending _ hi.apart (recyclesLent_outside hi ho)
  lent := fun g con => (mem_lent_outside hi ho g con).trans (hi.lent g con)
  notNull := hi.notNull

theorem inv_step (s : Guarding) (a : Act) (hi : s.Inv) (ho : s.Orderly a) (hc : s.Careful a) :
    (s.step a).Inv := by
  rcases hhalt : s.lending.halted with _ | _
  case true =>
    unfold step
    rw [hhalt, if_pos rfl]
    exact hi
  have hc := hc hhalt
  cases a with
  | getConnection g closed connect =>
      rcases hg : s.guards g with _ | conn | conn | conn
      case absent => exact hi.getConnection hhalt hg (hc hg)
      all_goals simpa [step, hhalt, hg] using hi
  | recycleConnection g =>
      rcases hg : s.guards g with _ | conn | conn | conn
      case constructed => exact hi.recycleConnection hhalt hg
      all_goals simpa [step, hhalt, hg] using hi
  | other m =>
      unfold step
      rw [hhalt, if_neg Bool.false_ne_true]
      exact hi.other ho
  | threadEnd g =>
      rcases hg : s.guards g with _ | conn | conn | conn
      case recycled => exact absurd hg (hc conn)
      all_goals simpa [step, hhalt, hg] using hi
  -- the guard goes through its connection and keeps it
  | threadInit g =>
      rcases hg : s.guards g with _ | conn | conn | conn
      case got =>
        simp only [step, hhalt, hg, Bool.false_eq_true, if_false]
        exact hi.touch (by rw [hg]; rfl) fun con => by rw [hg]; exact Iff.rfl
      all_goals simpa [step, hhalt, hg] using hi
  | use g =>
      rcases hg : s.guards g with _ | conn | conn | conn
      case constructed =>
        simp only [step, hhalt, hg, Bool.false_eq_true, if_false]
        exact hi.touch (by rw [hg]; rfl) fun con => by rw [hg]
      all_goals simpa [step, hhalt, hg] using hi

/-- **One step.** A guard that has recycled its connection is lent nothing any more. -/
theorem safe_iff (s : Guarding) (a : Act) (hi : s.Inv) : s.Safe a ↔ s.Careful a := by
  refine forall_congr' fun _ => ?_
  cases a with
  | getConnection g closed connect =>
      exact forall_congr' fun _ => SQLConnPool.getConnection_ne_null_iff _ closed connect
  | threadInit g =>
      refine iff_of_true (fun conn hg => hi.mayTouch ?_) trivial
      rw [hg]
      rfl
  | use g =>
      refine iff_of_true (fun conn hg => hi.mayTouch ?_) trivial
      rw [hg]
      rfl
  | recycleConnection g => exact Iff.rfl
  | threadEnd g =>
      refine ⟨fun h conn hg => ?_, fun h conn hg => absurd hg (h conn)⟩
      obtain ⟨con, _, hmine, _⟩ := h conn hg
      have hholds := (hi.lent g con).mp hmine
      rw [hg] at hholds
      exact hholds
  | other m => exact Iff.rfl

theorem inv_start : start.Inv where
  apart := Lending.apart_init
  lent := fun _ _ => iff_of_false List.not_mem_nil fun h => h
  notNull := fun _ h => h

/--
**When guards are safe.**

For every run of guards and of orderly calls of others between them: no guard goes through
a null connection, or through one that is not lent to it alone at that time, if and only if
there was a connection for each guard that was constructed, and no destructor got as far as
`threadEnd`.
-/
theorem guards_safe_iff {acts : List Act} (h : AllSteps step Orderly start acts) :
    AllSteps step Safe start acts ↔ AllSteps step Careful start acts := by
  have hboth : AllSteps step (fun s a => s.Orderly a ∧ s.Safe a) start acts ↔
      AllSteps step (fun s a => s.Orderly a ∧ s.Careful a) start acts :=
    allSteps_iff_of_kept inv_start (fun s a hi hc => inv_step s a hi hc.1 hc.2)
      (fun s a hi => and_congr_right fun _ => safe_iff s a hi) acts
  rw [allSteps_and, allSteps_and, and_iff_right h, and_iff_right h] at hboth
  exact hboth

/-- A pool of one connection. -/
def one : Act := .other (.createConnPool "tcp://127.0.0.1:3306" "root" "" "test" 1 true
  fun _ => .failed)

/-- A guard that does not get to `threadEnd`, and a borrower without a guard after it. -/
def handingOn : List Act :=
  [one, .getConnection 1 .no (.connected .above true), .threadInit 1, .use 1,
    .recycleConnection 1, .other (.call (.getConnection 1 .no .failed)),
    .other (.call (.recycleConnection (some 0)))]

theorem guards_safe_handingOn : AllSteps step Safe start handingOn := by
  have horderly : AllSteps step Orderly start handingOn :=
    ⟨trivial, trivial, trivial, trivial, trivial, trivial, ⟨1, by decide⟩, trivial⟩
  refine (guards_safe_iff horderly).mpr ⟨fun _ => trivial, fun _ _ => by decide, ?_⟩
  exact ⟨fun _ => trivial, fun _ => trivial, fun _ => trivial, fun _ => trivial, fun _ => trivial,
    trivial⟩

/-- A second guard finds a pool of one exhausted; and one that goes meets the next borrower. -/
theorem not_guards_safe :
    ¬ AllSteps step Safe start [one, .getConnection 1 .no (.connected .above true), .threadInit 1,
        .getConnection 2 .no .failed, .threadInit 2] ∧
      ¬ AllSteps step Safe start [one, .getConnection 1 .no (.connected .above true),
        .threadInit 1, .recycleConnection 1, .getConnection 2 .no .failed, .threadInit 2,
        .threadEnd 1] := by
  refine ⟨fun h => ?_, fun h => ?_⟩
  · have hsecond := h.2.2.2.1 (by decide) (by decide)
    exact hsecond (by decide)
  · obtain ⟨con, hcon, hmine, _⟩ := h.2.2.2.2.2.2.1 (by decide) (some 0) (by decide)
    obtain rfl : 0 = con := Option.some.inj hcon
    exact absurd hmine (by decide)

end Guarding

end NanomsgDemo.Sql

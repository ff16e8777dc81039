import NanomsgDemo.Lib.Format
import NanomsgDemo.Lib.Runs
import NanomsgDemo.Net.CString
import NanomsgDemo.Net.SocketSession

/-!
# The outcome of a query

`SQLQueryResult` of `libmysqlwarpper/SQLMgr.cpp`. Each call of the driver and each
callback on a result set may throw, and `executeQuery` catches what they throw. What
it returns is whether `_res` is null, and `_res` is whatever the last successful call
has left there; what it executes is `_stmt` or `_pstmt`, which may be null.

A call leaves a trace of what happened in it. After a null pointer has been followed,
or `__catch_info` has run out of its buffer or of arguments, there is no object any
more: the run is over.
-/

namespace NanomsgDemo.Sql

open Net (Ptr CString text)
open Runs

/-- `sql::SQLException`. -/
structure SQLException where
  what : CString
  errorCode : Int32
  sqlState : CString

/--
`__catch_info`, in a source file of the given name: the text, `none` if it does not
fit into `buf`, or is a format with directives for the `printf` it is handed to.
-/
def catchInfo (file : CString) (e : SQLException) : Option (List Net.Byte) :=
  let buf := text "# ERR: SQLException in " ++ file.bytes ++ text " \n" ++
    text "# (__catch_info) on line (" ++ file.bytes ++ text ") \n" ++
    text "# ERR: (" ++ e.what.bytes ++ text ") \n" ++
    text "# (MySQL error code : " ++ text (toString e.errorCode) ++
    text "), SQLState: (" ++ e.sqlState.bytes ++ text ") \n"
  if buf.length < 2048 ∧ Format.paired buf then some buf else none

/-- What a callback on a result set does: it returns, or throws. -/
abbrev OnResult := Nat → Option SQLException

/-- `SQLQueryResult`; `mgr` tells if `_mgr` is not null. -/
structure SQLQueryResult where
  mgr : Bool
  res : Ptr
  stmt : Ptr
  pstmt : Ptr
  conn : Ptr
  onResultFunc : Option OnResult
  /-- `_onErrorFunc` is not null. -/
  onErrorFunc : Bool

/--
What the driver, the connection manager and the subclass answer during a call. The
texts of the queries go to the driver and nowhere else.
-/
structure Answers where
  /-- `_mgr->getConnection()`. -/
  getConnection : Ptr
  createStatement : Except SQLException Nat
  prepareStatement : Except SQLException Nat
  executeQuery : Except SQLException Nat
  rowsCount : Option SQLException
  onResult : OnResult

/-- What happens during a call. -/
inductive Event where
  | executed (res : Nat)
  | threw (e : SQLException)
  | onResultFunc (res : Nat)
  | onResult (res : Nat)
  | onErrorFunc (error : List Net.Byte)
  | onError (error : List Net.Byte)
  | onReset

/-- The end of a call: with a value and the object as it is then, or undefined. -/
inductive Ended (α : Type) where
  | returned (value : α) (q : SQLQueryResult)
  | undefined

/-- The object after a call, if there is one. -/
def Ended.next {α : Type} : Ended α → Option SQLQueryResult
  | .returned _ q => some q
  | .undefined => none

/-- What happened during a call, and how it ended. -/
abbrev Trace (α : Type) := List Event × Ended α

/-- A trace that begins with more. -/
def Trace.after {α : Type} (events : List Event) (t : Trace α) : Trace α := (events ++ t.1, t.2)

namespace SQLQueryResult

/-- `SQLQueryResult::SQLQueryResult` of a connection. The other constructor does not set `_conn`. -/
def ofConnection (conn : Ptr) : SQLQueryResult where
  mgr := false
  res := none
  stmt := none
  pstmt := none
  conn := conn
  onResultFunc := none
  onErrorFunc := false

/-- `if (_conn == NULL) _conn = _mgr->getConnection();`, `none` if `_mgr` is null too. -/
def findConnection (q : SQLQueryResult) (a : Answers) : Option SQLQueryResult :=
  if q.conn = none then
    if q.mgr then some { q with conn := a.getConnection } else none
  else some q

section File

/- The name of the source file. -/
variable (file : CString)

/-- `SQLQueryResult::createStatement`. -/
def createStatement (q : SQLQueryResult) (a : Answers) : Trace Bool :=
  match q.stmt with
  | some _ => ([], .returned true q)
  | none =>
      match q.findConnection a with
      | none => ([], .undefined)
      | some q =>
          if q.conn = none then ([], .undefined)
          else
            match a.createStatement with
            | .ok stmt => ([], .returned true { q with stmt := some stmt })
            | .error e =>
                match catchInfo file e with
                | none => ([.threw e], .undefined)
                | some s => ([.threw e, .onError s], .returned false q)

/-- `SQLQueryResult::prepareStatement`. -/
def prepareStatement (q : SQLQueryResult) (a : Answers) : Trace Ptr :=
  let q := { q with pstmt := none }
  match q.findConnection a with
  | none => ([], .undefined)
  | some q =>
      if q.conn = none then ([], .undefined)
      else
        match a.prepareStatement with
        | .ok pstmt => ([], .returned (some pstmt) { q with pstmt := some pstmt })
        | .error e =>
            match catchInfo file e with
            | none => ([.threw e], .undefined)
            | some s => ([.threw e, .onError s], .returned none q)

/-- The `catch` of both `executeQuery`s, and their `return`. -/
def caught (q : SQLQueryResult) (e : SQLException) : Trace Bool :=
  match catchInfo file e with
  | none => ([.threw e], .undefined)
  | some s =>
      ([.threw e] ++ (if q.onErrorFunc then [.onErrorFunc s] else []) ++ [.onError s],
        .returned q.res.isSome q)

/-- `onResult(_res)`, and the `return` of both `executeQuery`s. -/
def callOnResult (q : SQLQueryResult) (a : Answers) (res : Nat) : Trace Bool :=
  match a.onResult res with
  | some e => Trace.after [.onResult res] (q.caught file e)
  | none => ([.onResult res], .returned q.res.isSome q)

/-- The callbacks of both `executeQuery`s on a result set. -/
def deliver (q : SQLQueryResult) (a : Answers) (res : Nat) : Trace Bool :=
  match q.onResultFunc with
  | some f =>
      match f res with
      | some e => Trace.after [.onResultFunc res] (q.caught file e)
      | none => Trace.after [.onResultFunc res] (q.callOnResult file a res)
  | none => q.callOnResult file a res

/-- `SQLQueryResult::executeQuery` of a string. -/
def executeQuerySql (q : SQLQueryResult) (onResultFunc : Option OnResult) (onErrorFunc : Bool)
    (a : Answers) : Trace Bool :=
  let q := { q with onResultFunc, onErrorFunc }
  let (events, created) :=
    if q.stmt = none then q.createStatement file a else ([], .returned true q)
  match created with
  | .undefined => (events, .undefined)
  | .returned _ q =>
      match q.stmt with
      | none => (events, .undefined)
      | some _ =>
          Trace.after events <|
            match a.executeQuery with
            | .error e => q.caught file e
            | .ok res =>
                Trace.after [.executed res] ({ q with res := some res }.deliver file a res)

/-- `SQLQueryResult::executeQuery` of the prepared statement. -/
def executeQuery (q : SQLQueryResult) (onResultFunc : Option OnResult) (onErrorFunc : Bool)
    (a : Answers) : Trace Bool :=
  let q := { q with onResultFunc, onErrorFunc }
  match q.pstmt with
  | none => ([], .undefined)
  | some _ =>
      match a.executeQuery with
      | .error e => q.caught file e
      | .ok res =>
          let q := { q with res := some res }
          Trace.after [.executed res] <|
            match a.rowsCount with
            | some e => q.caught file e
            | none => q.deliver file a res

/-- `SQLQueryResult::reset`. -/
def reset (q : SQLQueryResult) : Trace Unit :=
  ([.onReset],
    .returned () { q with res := none, stmt := none, pstmt := none, onResultFunc := none,
                          onErrorFunc := false })

/-- A call of one of the methods. -/
inductive Call where
  | reset
  | createStatement (a : Answers)
  | prepareStatement (a : Answers)
  | executeQuerySql (onResultFunc : Option OnResult) (onErrorFunc : Bool) (a : Answers)
  | executeQuery (onResultFunc : Option OnResult) (onErrorFunc : Bool) (a : Answers)

/-- The object after a call. After an undefined one there is none. -/
def step (s : Option SQLQueryResult) (c : Call) : Option SQLQueryResult :=
  match s with
  | none => none
  | some q =>
      match c with
      | .reset => q.reset.2.next
      | .createStatement a => (q.createStatement file a).2.next
      | .prepareStatement a => (q.prepareStatement file a).2.next
      | .executeQuerySql f g a => (q.executeQuerySql file f g a).2.next
      | .executeQuery f g a => (q.executeQuery file f g a).2.next

end File

end SQLQueryResult

/-! ## What a call reports -/

namespace Event

/-- The result sets the driver returned. -/
def executedIn (events : List Event) : List Nat :=
  events.filterMap fun
    | .executed res => some res
    | _ => none

/-- The exceptions that were thrown. -/
def threwIn (events : List Event) : List SQLException :=
  events.filterMap fun
    | .threw e => some e
    | _ => none

/-- The result sets that were handed to `onResultFunc` and `onResult`. -/
def handedIn (events : List Event) : List Nat :=
  events.filterMap fun
    | .onResultFunc res => some res
    | .onResult res => some res
    | _ => none

/-- The texts `onErrorFunc` was called with. -/
def onErrorFuncIn (events : List Event) : List (List Net.Byte) :=
  events.filterMap fun
    | .onErrorFunc error => some error
    | _ => none

/-- The texts `onError` was called with. -/
def onErrorIn (events : List Event) : List (List Net.Byte) :=
  events.filterMap fun
    | .onError error => some error
    | _ => none

variable (events events' : List Event)

@[simp] theorem executedIn_append :
    executedIn (events ++ events') = executedIn events ++ executedIn events' :=
  List.filterMap_append

@[simp] theorem threwIn_append : threwIn (events ++ events') = threwIn events ++ threwIn events' :=
  List.filterMap_append

@[simp] theorem handedIn_append :
    handedIn (events ++ events') = handedIn events ++ handedIn events' :=
  List.filterMap_append

@[simp] theorem onErrorFuncIn_append :
    onErrorFuncIn (events ++ events') = onErrorFuncIn events ++ onErrorFuncIn events' :=
  List.filterMap_append

@[simp] theorem onErrorIn_append :
    onErrorIn (events ++ events') = onErrorIn events ++ onErrorIn events' :=
  List.filterMap_append

end Event

namespace SQLQueryResult

open Event

section File

variable (file : CString)

/--
A call of `executeQuery` reports its own outcome. It is defined, it returns true
exactly if the driver returned a result set in it, it hands out no other result set,
and each exception in it is told once, to `onError` and to `onErrorFunc` if there is one.
-/
structure Reports (onErrorFunc : Bool) (t : Trace Bool) : Prop where
  returned : ∃ q, t.2 = .returned (!(executedIn t.1).isEmpty) q
  handed : ∀ res ∈ handedIn t.1, res ∈ executedIn t.1
  onErrorFunc : (onErrorFuncIn t.1).map some =
    if onErrorFunc then (threwIn t.1).map (catchInfo file) else []
  onError : (onErrorIn t.1).map some = (threwIn t.1).map (catchInfo file)

/-- A call of `executeQuery` in a run reports its own outcome. -/
def Reported (s : Option SQLQueryResult) (c : Call) : Prop :=
  match s, c with
  | some q, .executeQuerySql f g a => Reports file g (q.executeQuerySql file f g a)
  | some q, .executeQuery f g a => Reports file g (q.executeQuery file f g a)
  | _, _ => True

/-- A connection is there, or `_mgr` has one. -/
def HasConnection (q : SQLQueryResult) (a : Answers) : Prop :=
  q.conn ≠ none ∨ q.mgr = true ∧ a.getConnection ≠ none

/-- There is a statement, or one can be created. -/
def HasStatement (q : SQLQueryResult) (a : Answers) : Prop :=
  q.stmt ≠ none ∨ q.HasConnection a ∧ ∃ stmt, a.createStatement = .ok stmt

/-- The first exception of the callbacks on a result set. -/
def firstThrown (onResultFunc : Option OnResult) (a : Answers) (res : Nat) :
    Option SQLException :=
  (onResultFunc.bind fun f => f res).or (a.onResult res)

/--
The driver executes the query, or it fails and no result set is left from an earlier
call. Every exception has a text that `__catch_info` can handle.
-/
def Executes (q : SQLQueryResult) (a : Answers) (checked : Option SQLException)
    (onResultFunc : Option OnResult) : Prop :=
  match a.executeQuery with
  | .error e => q.res = none ∧ (catchInfo file e).isSome = true
  | .ok res => ∀ e, checked.or (firstThrown onResultFunc a res) = some e →
      (catchInfo file e).isSome = true

/-- A call of `executeQuery` has a statement, and executes it or has nothing stale to return. -/
def Reportable (s : Option SQLQueryResult) (c : Call) : Prop :=
  match s, c with
  | some q, .executeQuerySql f _ a => q.HasStatement a ∧ q.Executes file a none f
  | some q, .executeQuery f _ a => q.pstmt ≠ none ∧ q.Executes file a a.rowsCount f
  | _, _ => True

/-! ## The end of a call -/

/-- Events without an exception, and with no result set handed out but those executed. -/
structure Quiet (events : List Event) : Prop where
  threw : threwIn events = []
  onErrorFunc : onErrorFuncIn events = []
  onError : onErrorIn events = []
  handed : ∀ res ∈ handedIn events, res ∈ executedIn events

/-- The end of both `executeQuery`s: an exception is caught, or they return. -/
def finish (q : SQLQueryResult) : Option SQLException → Trace Bool
  | some e => q.caught file e
  | none => ([], .returned q.res.isSome q)

/-- What happens in the `catch`, if the exception has a text. -/
def caughtEvents (onErrorFunc : Bool) (e : SQLException) (s : List Net.Byte) : List Event :=
  [.threw e] ++ (if onErrorFunc then [.onErrorFunc s] else []) ++ [.onError s]

theorem caught_eq {q : SQLQueryResult} {e : SQLException} {s : List Net.Byte}
    (h : catchInfo file e = some s) :
    q.caught file e = (caughtEvents q.onErrorFunc e s, .returned q.res.isSome q) := by
  simp only [caught, h]
  rfl

section CaughtEvents

variable (g : Bool) (e : SQLException) (s : List Net.Byte)

@[simp] theorem executedIn_caughtEvents : executedIn (caughtEvents g e s) = [] := by
  cases g
  · rfl
  · rfl

@[simp] theorem handedIn_caughtEvents : handedIn (caughtEvents g e s) = [] := by
  cases g
  · rfl
  · rfl

@[simp] theorem threwIn_caughtEvents : threwIn (caughtEvents g e s) = [e] := by
  cases g
  · rfl
  · rfl

@[simp] theorem onErrorFuncIn_caughtEvents :
    onErrorFuncIn (caughtEvents g e s) = if g then [s] else [] := by
  cases g
  · rfl
  · rfl

@[simp] theorem onErrorIn_caughtEvents : onErrorIn (caughtEvents g e s) = [s] := by
  cases g
  · rfl
  · rfl

end CaughtEvents

section Finish

variable {q : SQLQueryResult} {events : List Event} {e : SQLException}
  {s : List Net.Byte}

/-- Without an exception the result is what decides. -/
theorem reports_finish_none (h : Quiet events) :
    Reports file q.onErrorFunc (Trace.after events (q.finish file none)) ↔
      q.res.isSome = !(executedIn events).isEmpty := by
  constructor
  · intro hr
    obtain ⟨q', hq⟩ := hr.returned
    simp only [Trace.after, finish, List.append_nil, Ended.returned.injEq] at hq
    exact hq.1
  · intro hr
    refine ⟨⟨q, ?_⟩, ?_, ?_, ?_⟩
    · simp [Trace.after, finish, hr]
    · simpa [Trace.after, finish] using h.handed
    · simp [Trace.after, finish, h.onErrorFunc, h.threw]
    · simp [Trace.after, finish, h.onError, h.threw]

/-- An exception whose text cannot be printed is undefined. -/
theorem not_reports_finish (hinfo : catchInfo file e = none) :
    ¬Reports file q.onErrorFunc (Trace.after events (q.finish file (some e))) := by
  intro hr
  obtain ⟨q', hq⟩ := hr.returned
  have hend : (Trace.after events (q.finish file (some e))).2 = .undefined := by
    simp [Trace.after, finish, caught, hinfo]
  rw [hend] at hq
  cases hq

/-- Any other one is reported, and then it is the result again. -/
theorem reports_finish_some (h : Quiet events) (hinfo : catchInfo file e = some s) :
    Reports file q.onErrorFunc (Trace.after events (q.finish file (some e))) ↔
      q.res.isSome = !(executedIn events).isEmpty := by
  have htrace := caught_eq file (q := q) hinfo
  constructor
  · intro hr
    obtain ⟨q', hq⟩ := hr.returned
    simp only [Trace.after, finish, htrace, executedIn_append, executedIn_caughtEvents,
      List.append_nil, Ended.returned.injEq] at hq
    exact hq.1
  · intro hr
    refine ⟨⟨q, ?_⟩, ?_, ?_, ?_⟩
    · simp [Trace.after, finish, htrace, hr]
    · simpa [Trace.after, finish, htrace] using h.handed
    · simp only [Trace.after, finish, htrace, onErrorFuncIn_append, threwIn_append,
        h.onErrorFunc, h.threw, onErrorFuncIn_caughtEvents, threwIn_caughtEvents,
        List.nil_append, List.map_cons, List.map_nil, hinfo]
      split
      · rfl
      · rfl
    · simp [Trace.after, finish, htrace, h.onError, h.threw, hinfo]

end Finish

theorem reports_finish (q : SQLQueryResult) (thrown : Option SQLException) {events : List Event}
    (h : Quiet events) :
    Reports file q.onErrorFunc (Trace.after events (q.finish file thrown)) ↔
      q.res.isSome = !(executedIn events).isEmpty ∧
        ∀ e, thrown = some e → (catchInfo file e).isSome = true := by
  cases thrown with
  | none =>
      rw [reports_finish_none file h]
      exact (and_iff_left fun e he => (by cases he)).symm
  | some e =>
      cases hinfo : catchInfo file e with
      | none =>
          refine iff_of_false (not_reports_finish file hinfo) ?_
          intro hr
          have hsome := hr.2 e rfl
          rw [hinfo] at hsome
          cases hsome
      | some s =>
          rw [reports_finish_some file h hinfo]
          refine (and_iff_left ?_).symm
          intro e' he
          cases he
          rw [hinfo]
          rfl

theorem after_nil {α : Type} (t : Trace α) : Trace.after [] t = t := rfl

theorem after_after {α : Type} (events events' : List Event) (t : Trace α) :
    Trace.after events (Trace.after events' t) = Trace.after (events ++ events') t := by
  simp [Trace.after, List.append_assoc]

theorem callOnResult_eq (q : SQLQueryResult) (a : Answers) (res : Nat) :
    q.callOnResult file a res = Trace.after [.onResult res] (q.finish file (a.onResult res)) := by
  unfold callOnResult
  cases a.onResult res with
  | none => rfl
  | some e => rfl

/-- The callbacks are handed the result set, and the first exception ends the call. -/
theorem deliver_eq (q : SQLQueryResult) (a : Answers) (res : Nat) :
    ∃ events, Quiet (.executed res :: events) ∧ executedIn events = [] ∧
      q.deliver file a res =
        Trace.after events (q.finish file (firstThrown q.onResultFunc a res)) := by
  unfold deliver firstThrown
  cases q.onResultFunc with
  | none =>
      refine ⟨[.onResult res], ⟨rfl, rfl, rfl, ?_⟩, rfl, callOnResult_eq file q a res⟩
      simp [handedIn, executedIn]
  | some f =>
      cases hf : f res with
      | some e =>
          refine ⟨[.onResultFunc res], ⟨rfl, rfl, rfl, ?_⟩, rfl, ?_⟩
          · simp [handedIn, executedIn]
          · simp [hf, finish]
      | none =>
          refine ⟨[.onResultFunc res, .onResult res], ⟨rfl, rfl, rfl, ?_⟩, rfl, ?_⟩
          · simp [handedIn, executedIn]
          · simp [hf, callOnResult_eq, after_after]

/-- What both `executeQuery`s do once there is a statement. -/
def execute (q : SQLQueryResult) (a : Answers) (checked : Option SQLException) : Trace Bool :=
  match a.executeQuery with
  | .error e => q.caught file e
  | .ok res =>
      let q := { q with res := some res }
      Trace.after [.executed res] <|
        match checked with
        | some e => q.caught file e
        | none => q.deliver file a res

/-- The driver has executed the query: the call ends with the first exception after that. -/
theorem execute_ok (q : SQLQueryResult) {a : Answers} (checked : Option SQLException) {res : Nat}
    (h : a.executeQuery = .ok res) :
    ∃ events, Quiet (.executed res :: events) ∧ executedIn events = [] ∧
      q.execute file a checked = Trace.after (.executed res :: events)
        ({ q with res := some res }.finish file
          (checked.or (firstThrown q.onResultFunc a res))) := by
  unfold execute
  rw [h]
  cases checked with
  | some e =>
      refine ⟨[], ⟨rfl, rfl, rfl, by simp [handedIn]⟩, rfl, ?_⟩
      rw [Option.some_or, finish]
  | none =>
      obtain ⟨events, hquiet, hexecuted, heq⟩ := deliver_eq file { q with res := some res } a res
      refine ⟨events, hquiet, hexecuted, ?_⟩
      simp only [heq, after_after, List.singleton_append, Option.none_or]

/-- With a statement, what counts is that the driver executes it, or that nothing is stale. -/
theorem reports_execute (q : SQLQueryResult) (a : Answers) (checked : Option SQLException) :
    Reports file q.onErrorFunc (q.execute file a checked) ↔
      q.Executes file a checked q.onResultFunc := by
  cases h : a.executeQuery with
  | error e =>
      have hquiet : Quiet [] := ⟨rfl, rfl, rfl, by simp [handedIn]⟩
      have hiff := reports_finish file q (some e) hquiet
      simp only [after_nil, finish] at hiff
      simp only [execute, Executes, h]
      rw [hiff]
      simp [executedIn]
  | ok res =>
      obtain ⟨events, hquiet, _, heq⟩ := execute_ok file q checked h
      have hiff := reports_finish file { q with res := some res }
        (checked.or (firstThrown q.onResultFunc a res)) hquiet
      simp only [heq, Executes, h]
      rw [hiff]
      simp [executedIn]

/-! ## Which calls report their outcome -/

theorem not_reports_undefined {onErrorFunc : Bool} {t : Trace Bool} (h : t.2 = .undefined) :
    ¬Reports file onErrorFunc t := by
  intro hr
  obtain ⟨q', hq⟩ := hr.returned
  rw [h] at hq
  cases hq

theorem reports_executeQuery (q : SQLQueryResult) (f : Option OnResult) (g : Bool)
    (a : Answers) :
    Reports file g (q.executeQuery file f g a) ↔
      q.pstmt ≠ none ∧ q.Executes file a a.rowsCount f := by
  cases hp : q.pstmt with
  | none =>
      have hund : (q.executeQuery file f g a).2 = .undefined := by simp [executeQuery, hp]
      exact iff_of_false (not_reports_undefined file hund) fun h => h.1 rfl
  | some pstmt =>
      have hrun : q.executeQuery file f g a =
          { q with onResultFunc := f, onErrorFunc := g }.execute file a a.rowsCount := by
        simp only [executeQuery, hp]
        rfl
      rw [hrun]
      refine (reports_execute file { q with onResultFunc := f, onErrorFunc := g } a _).trans ?_
      exact ⟨fun h => ⟨Option.some_ne_none pstmt, h⟩, fun h => h.2⟩

theorem findConnection_of_hasConnection {q : SQLQueryResult} {a : Answers}
    (h : q.HasConnection a) :
    ∃ conn, conn ≠ none ∧ q.findConnection a = some { q with conn } := by
  unfold findConnection
  by_cases hc : q.conn = none
  · rcases h with h | ⟨hm, hg⟩
    · exact absurd hc h
    · exact ⟨a.getConnection, hg, by rw [if_pos hc, if_pos hm]⟩
  · exact ⟨q.conn, hc, if_neg hc⟩

theorem findConnection_of_not_hasConnection {q : SQLQueryResult} {a : Answers}
    (h : ¬q.HasConnection a) :
    q.findConnection a = none ∨ ∃ q', q.findConnection a = some q' ∧ q'.conn = none := by
  have hc : q.conn = none := by
    by_contra hc
    exact h (Or.inl hc)
  unfold findConnection
  rw [if_pos hc]
  by_cases hm : q.mgr = true
  · right
    refine ⟨{ q with conn := a.getConnection }, if_pos hm, ?_⟩
    by_contra hg
    exact h (Or.inr ⟨hm, hg⟩)
  · exact Or.inl (if_neg hm)

/-- A missing statement is created; or the driver throws; or there is nobody to ask for one. -/
theorem createStatement_cases {q : SQLQueryResult} {a : Answers} (hs : q.stmt = none) :
    (q.HasConnection a ∧ ∃ conn stmt, a.createStatement = .ok stmt ∧
        q.createStatement file a = ([], .returned true { q with conn, stmt := some stmt })) ∨
      (q.HasConnection a ∧ ∃ conn e, a.createStatement = .error e ∧
        q.createStatement file a =
          match catchInfo file e with
          | none => ([.threw e], .undefined)
          | some s => ([.threw e, .onError s], .returned false { q with conn })) ∨
      ¬q.HasConnection a ∧ q.createStatement file a = ([], .undefined) := by
  by_cases hc : q.HasConnection a
  · obtain ⟨conn, hne, hfind⟩ := findConnection_of_hasConnection hc
    cases hcr : a.createStatement with
    | ok stmt =>
        refine Or.inl ⟨hc, conn, stmt, rfl, ?_⟩
        simp [createStatement, hs, hfind, hne, hcr]
    | error e =>
        refine Or.inr (Or.inl ⟨hc, conn, e, rfl, ?_⟩)
        simp [createStatement, hs, hfind, hne, hcr]
  · refine Or.inr (Or.inr ⟨hc, ?_⟩)
    rcases findConnection_of_not_hasConnection hc with hfind | ⟨q', hfind, hconn⟩
    · simp [createStatement, hs, hfind]
    · simp [createStatement, hs, hfind, hconn]

/-- Where none can be created, `_stmt` stays null, if the object survives. -/
theorem createStatement_of_not_hasStatement {q : SQLQueryResult} {a : Answers} (hs : q.stmt = none)
    (hnot : ¬q.HasStatement a) :
    (q.createStatement file a).2 = .undefined ∨
      ∃ q', (q.createStatement file a).2 = .returned false q' ∧ q'.stmt = none := by
  rcases createStatement_cases file (a := a) hs with
    ⟨hc, conn, stmt, hok, _⟩ | ⟨_, conn, e, _, hcr⟩ | ⟨_, hcr⟩
  · exact absurd (Or.inr ⟨hc, stmt, hok⟩) hnot
  · rw [hcr]
    cases catchInfo file e with
    | none => exact Or.inl rfl
    | some s => exact Or.inr ⟨{ q with conn }, rfl, hs⟩
  · rw [hcr]
    exact Or.inl rfl

/-- The rest of `executeQuery` of a string, after a statement has been asked for. -/
def executeCreated (created : Trace Bool) (a : Answers) : Trace Bool :=
  match created.2 with
  | .undefined => (created.1, .undefined)
  | .returned _ q =>
      match q.stmt with
      | none => (created.1, .undefined)
      | some _ => Trace.after created.1 (q.execute file a none)

theorem executeQuerySql_eq (q : SQLQueryResult) (f : Option OnResult) (g : Bool) (a : Answers) :
    q.executeQuerySql file f g a =
      executeCreated file
        (if q.stmt = none then
          { q with onResultFunc := f, onErrorFunc := g }.createStatement file a
        else ([], .returned true { q with onResultFunc := f, onErrorFunc := g })) a := rfl

/--
`executeQuery` of a string executes it once there is a statement, and otherwise goes
through a null pointer.
-/
theorem executeQuerySql_cases (q : SQLQueryResult) (f : Option OnResult) (g : Bool)
    (a : Answers) :
    (q.HasStatement a ∧ ∃ conn stmt, (q.stmt ≠ none → q.stmt = some stmt) ∧
        q.executeQuerySql file f g a =
          { q with onResultFunc := f, onErrorFunc := g, conn, stmt := some stmt }.execute
            file a none) ∨
      ¬q.HasStatement a ∧ (q.executeQuerySql file f g a).2 = .undefined := by
  rw [executeQuerySql_eq]
  by_cases hs : q.stmt = none
  · rw [if_pos hs]
    by_cases hhas : q.HasStatement a
    · rcases createStatement_cases file (a := a)
          (q := { q with onResultFunc := f, onErrorFunc := g }) hs with
        ⟨_, conn, stmt, _, hcr⟩ | ⟨_, conn, e, herr, _⟩ | ⟨hc, _⟩
      · refine Or.inl ⟨hhas, conn, stmt, fun h => absurd hs h, ?_⟩
        rw [hcr]
        rfl
      · rcases hhas with h | ⟨_, stmt, h⟩
        · exact absurd hs h
        · exact nomatch herr.symm.trans h
      · rcases hhas with h | h
        · exact absurd hs h
        · exact absurd h.1 hc
    · refine Or.inr ⟨hhas, ?_⟩
      rcases createStatement_of_not_hasStatement file
          (q := { q with onResultFunc := f, onErrorFunc := g }) hs hhas with
        hund | ⟨q', hret, hnull⟩
      · simp only [executeCreated, hund]
      · simp only [executeCreated, hret, hnull]
  · obtain ⟨stmt, hstmt⟩ := Option.ne_none_iff_exists'.mp hs
    refine Or.inl ⟨Or.inl hs, q.conn, stmt, fun _ => hstmt, ?_⟩
    rw [if_neg hs]
    simp only [executeCreated, hstmt]
    rfl

theorem reports_executeQuerySql (q : SQLQueryResult) (f : Option OnResult) (g : Bool)
    (a : Answers) :
    Reports file g (q.executeQuerySql file f g a) ↔
      q.HasStatement a ∧ q.Executes file a none f := by
  rcases executeQuerySql_cases file q f g a with ⟨hhas, conn, stmt, _, hrun⟩ | ⟨hnot, hund⟩
  · rw [hrun, and_iff_right hhas]
    exact reports_execute file
      { q with onResultFunc := f, onErrorFunc := g, conn, stmt := some stmt } a none
  · exact iff_of_false (not_reports_undefined file hund) fun h => hnot h.1

theorem reported_step_iff (s : Option SQLQueryResult) (c : Call) :
    Reported file s c ↔ Reportable file s c := by
  cases s with
  | none => exact Iff.rfl
  | some q =>
      cases c with
      | executeQuerySql f g a => exact reports_executeQuerySql file q f g a
      | executeQuery f g a => exact reports_executeQuery file q f g a
      | _ => exact Iff.rfl

/--
**Which runs report the outcome of every query.**

Those in which every call of `executeQuery` has a statement to execute, and a query
that fails finds no result set of an earlier one: then `_res` is null exactly when
the query of the call has failed. Nothing clears `_res` but `reset`, and nothing
checks that there is a statement.
-/
theorem reported_iff_reportable (q : SQLQueryResult) (calls : List Call) :
    AllSteps (step file) (Reported file) (some q) calls ↔
      AllSteps (step file) (Reportable file) (some q) calls := by
  apply allSteps_congr (I := fun _ => True) trivial
  · intro s c _
    trivial
  · intro s c _
    exact reported_step_iff file s c

end File

/-- The answers to a query that succeeds. -/
def succeeding : Answers where
  getConnection := none
  createStatement := .ok 1
  prepareStatement := .ok 2
  executeQuery := .ok 3
  rowsCount := none
  onResult := fun _ => none

/-- The answers to one that fails. -/
def failing : Answers :=
  { succeeding with
    executeQuery := .error ⟨CString.lit "server has gone away", 2006, CString.lit "HY000"⟩ }

/-- After a query that succeeded, one that fails returns true. -/
theorem not_reported_second_failed :
    ¬AllSteps (step (CString.lit "SQLMgr.cpp")) (Reported (CString.lit "SQLMgr.cpp"))
      (some (ofConnection (some 0)))
      [.executeQuerySql none false succeeding, .executeQuerySql none false failing] := by
  rintro ⟨-, hsecond, -⟩
  have hex := ((reported_step_iff _ _ _).mp hsecond).2
  cases hex.1

end SQLQueryResult

end NanomsgDemo.Sql

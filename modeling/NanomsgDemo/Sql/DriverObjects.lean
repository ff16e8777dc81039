import NanomsgDemo.Lib.Ledger
import NanomsgDemo.Sql.SQLQueryResult

/-!
# The objects of the driver

A `SQLQueryResult` owns three objects that it has from the driver: `_res`, `_stmt` and
`_pstmt`. `createStatement` writes `_stmt` only if it is null, and `prepareStatement`
deletes what is in `_pstmt` before it writes it. Both `executeQuery`s write `_res`
over whatever is there.

Every object that the driver hands out is entered in an account, and so is every
`delete`. Nothing is deleted that is not there; what is missing in the end are the
result sets that were written over.
-/

namespace NanomsgDemo.Sql

open Net (Ptr CString text)
open Runs Accounts

/-- An object of the driver. -/
inductive DriverObject where
  | resultSet (p : Nat)
  | statement (p : Nat)
  | preparedStatement (p : Nat)
  deriving DecidableEq, Repr

namespace SQLQueryResult

open Event

/-- What `getResultSet`, `getStatement` and `getPreparedStatement` return, unless it is null. -/
def held (q : SQLQueryResult) : List DriverObject :=
  q.res.toList.map .resultSet ++ q.stmt.toList.map .statement ++
    q.pstmt.toList.map .preparedStatement

/-- What a call has put into an empty `_stmt`. -/
def newStatement (q : SQLQueryResult) (next : Option SQLQueryResult) : List DriverObject :=
  if q.stmt = none then (next.bind fun q => q.stmt).toList.map .statement else []

/-- What `prepareStatement` returns. -/
def newPreparedStatement : Ended Ptr → List DriverObject
  | .returned pstmt _ => pstmt.toList.map .preparedStatement
  | .undefined => []

/-- What a call deletes. -/
def deleted (q : SQLQueryResult) : Call → List DriverObject
  | .reset => q.held
  | .prepareStatement _ => q.pstmt.toList.map .preparedStatement
  | .createStatement _ | .executeQuerySql .. | .executeQuery .. => []

section File

variable (file : CString)

/-- What a call obtains from the driver. -/
def obtained (q : SQLQueryResult) : Call → List DriverObject
  | .reset => []
  | .createStatement a => q.newStatement (q.createStatement file a).2.next
  | .prepareStatement a => newPreparedStatement (q.prepareStatement file a).2
  | .executeQuerySql f g a =>
      let t := q.executeQuerySql file f g a
      q.newStatement t.2.next ++ (executedIn t.1).map .resultSet
  | .executeQuery f g a => (executedIn (q.executeQuery file f g a).1).map .resultSet

/-- If the driver executes the query, no result set is there already; exceptions have texts. -/
def KeepsResult (q : SQLQueryResult) (a : Answers) (checked : Option SQLException)
    (onResultFunc : Option OnResult) : Prop :=
  match a.executeQuery with
  | .error e => (catchInfo file e).isSome = true
  | .ok res => q.res = none ∧ ∀ e, checked.or (firstThrown onResultFunc a res) = some e →
      (catchInfo file e).isSome = true

/-- A statement can be asked for, and an exception of the driver has a text. -/
def Asks {α : Type} (q : SQLQueryResult) (a : Answers) (answer : Except SQLException α) : Prop :=
  q.HasConnection a ∧ ∀ e, answer = .error e → (catchInfo file e).isSome = true

/-- A call that follows no null pointer, and writes over no result set. -/
def Keeps (q : SQLQueryResult) : Call → Prop
  | .reset => True
  | .createStatement a => q.stmt ≠ none ∨ q.Asks file a a.createStatement
  | .prepareStatement a => q.Asks file a a.prepareStatement
  | .executeQuerySql f _ a => q.HasStatement a ∧ q.KeepsResult file a none f
  | .executeQuery f _ a => q.pstmt ≠ none ∧ q.KeepsResult file a a.rowsCount f

/-! ## One call -/

/--
A call is undefined, or what it finds and obtains is what it deletes and leaves, except
for what it loses.
-/
def Settles (q : SQLQueryResult) (obtained deleted : List DriverObject)
    (next : Option SQLQueryResult) (keeps : Prop) : Prop :=
  next = none ∧ ¬ keeps ∨
    ∃ q' lost, next = some q' ∧ (q.held ++ obtained).Perm (deleted ++ q'.held ++ lost) ∧
      (keeps ↔ lost = [])

/-- The driver has thrown an exception: it has a text, or it does not. -/
theorem texts_error_iff {α : Type} (e : SQLException) :
    (∀ e', (.error e : Except SQLException α) = .error e' → (catchInfo file e').isSome = true) ↔
      (catchInfo file e).isSome = true := by
  simp

theorem settles_undefined {q : SQLQueryResult} {obtained deleted : List DriverObject}
    {next : Option SQLQueryResult} {keeps : Prop} (hn : next = none) (hk : ¬ keeps) :
    q.Settles obtained deleted next keeps := Or.inl ⟨hn, hk⟩

/-- Nothing is obtained, deleted or lost. -/
theorem settles_unchanged {q q' : SQLQueryResult} {keeps : Prop} (hheld : q'.held = q.held)
    (hk : keeps) : q.Settles [] [] (some q') keeps := by
  refine Or.inr ⟨q', [], rfl, ?_, iff_of_true hk rfl⟩
  rw [hheld, List.append_nil, List.nil_append, List.append_nil]

/-- The end of a call leaves the object as it is, if its exception has a text. -/
theorem next_finish (q : SQLQueryResult) (thrown : Option SQLException) :
    (q.finish file thrown).2.next = some q ∧
        (∀ e, thrown = some e → (catchInfo file e).isSome = true) ∨
      (q.finish file thrown).2.next = none ∧
        ¬ ∀ e, thrown = some e → (catchInfo file e).isSome = true := by
  cases thrown with
  | none => exact Or.inl ⟨rfl, fun e he => nomatch he⟩
  | some e =>
      rw [finish]
      cases hinfo : catchInfo file e with
      | none =>
          refine Or.inr ⟨by simp only [caught, hinfo]; rfl, fun h => ?_⟩
          have := h e rfl
          rw [hinfo] at this
          exact absurd this Bool.false_ne_true
      | some s =>
          refine Or.inl ⟨by rw [caught_eq file hinfo]; rfl, fun e' he => ?_⟩
          obtain rfl := Option.some.inj he
          rw [hinfo]
          rfl

theorem executedIn_finish (q : SQLQueryResult) (thrown : Option SQLException) :
    executedIn (q.finish file thrown).1 = [] := by
  cases thrown with
  | none => rfl
  | some e =>
      rw [finish]
      cases hinfo : catchInfo file e with
      | none =>
          simp only [caught, hinfo]
          rfl
      | some s =>
          rw [caught_eq file hinfo]
          exact executedIn_caughtEvents ..

/-- A result set takes the place of another. -/
theorem perm_replace (q : SQLQueryResult) (res : Nat) :
    (q.held ++ [DriverObject.resultSet res]).Perm
      ([] ++ ({ q with res := some res } : SQLQueryResult).held ++
        q.res.toList.map DriverObject.resultSet) := by
  refine List.perm_iff_count.mpr fun o => ?_
  simp only [held, Option.toList_some, List.map_cons, List.map_nil, List.count_append,
    List.count_nil]
  omega

/-- What both `executeQuery`s do once there is a statement, which stays. -/
theorem settles_execute (q : SQLQueryResult) (a : Answers) (checked : Option SQLException) :
    q.Settles ((executedIn (q.execute file a checked).1).map .resultSet) []
        (q.execute file a checked).2.next (q.KeepsResult file a checked q.onResultFunc) ∧
      ∀ q', (q.execute file a checked).2.next = some q' → q'.stmt = q.stmt := by
  unfold KeepsResult
  cases h : a.executeQuery with
  | error e =>
      have hrun : q.execute file a checked = q.finish file (some e) := by
        simp only [execute, h]
        rfl
      have htext : (∀ e', some e = some e' → (catchInfo file e').isSome = true) ↔
          (catchInfo file e).isSome = true := by simp
      rw [hrun, executedIn_finish]
      rcases next_finish file q (some e) with ⟨hnext, hok⟩ | ⟨hnext, hbad⟩
      · rw [hnext]
        refine ⟨settles_unchanged rfl (htext.mp hok), fun q' hq => ?_⟩
        rw [Option.some.inj hq]
      · rw [hnext]
        exact ⟨settles_undefined rfl fun hk => hbad (htext.mpr hk),
          fun q' hq => absurd hq (by simp)⟩
  | ok res =>
      obtain ⟨events, _, hexecuted, heq⟩ := execute_ok file q checked h
      have hobtained : executedIn (q.execute file a checked).1 = [res] := by
        rw [heq]
        show executedIn (([.executed res] ++ events) ++ _) = [res]
        rw [executedIn_append, executedIn_append, hexecuted, executedIn_finish]
        rfl
      have hnext : (q.execute file a checked).2.next = ({ q with res := some res }.finish file
          (checked.or (firstThrown q.onResultFunc a res))).2.next := by
        rw [heq]
        rfl
      rw [hobtained, hnext]
      rcases next_finish file { q with res := some res }
        (checked.or (firstThrown q.onResultFunc a res)) with ⟨hend, hok⟩ | ⟨hend, hbad⟩
      · rw [hend]
        refine ⟨Or.inr ⟨_, q.res.toList.map .resultSet, rfl, perm_replace q res, ?_⟩,
          fun q' hq => ?_⟩
        · rw [List.map_eq_nil_iff, Option.toList_eq_nil_iff]
          exact and_iff_left hok
        · rw [← Option.some.inj hq]
      · rw [hend]
        exact ⟨settles_undefined rfl fun hk => hbad hk.2, fun q' hq => absurd hq (by simp)⟩

theorem settles_executeQuery (q : SQLQueryResult) (f : Option OnResult) (g : Bool)
    (a : Answers) :
    q.Settles ((executedIn (q.executeQuery file f g a).1).map .resultSet) []
      (q.executeQuery file f g a).2.next
      (q.pstmt ≠ none ∧ q.KeepsResult file a a.rowsCount f) := by
  cases hp : q.pstmt with
  | none =>
      have hrun : q.executeQuery file f g a = ([], .undefined) := by simp only [executeQuery, hp]
      rw [hrun]
      exact settles_undefined rfl fun h => h.1 rfl
  | some pstmt =>
      have hrun : q.executeQuery file f g a =
          { q with onResultFunc := f, onErrorFunc := g }.execute file a a.rowsCount := by
        simp only [executeQuery, hp]
        rfl
      rw [hrun, and_iff_right (Option.some_ne_none pstmt)]
      exact (settles_execute file { q with onResultFunc := f, onErrorFunc := g } a _).1

/-- A statement comes into the empty `_stmt`. -/
theorem perm_fill (q : SQLQueryResult) (hs : q.stmt = none) (conn : Ptr) (stmt : Nat) :
    (q.held ++ [DriverObject.statement stmt]).Perm
      ({ q with conn, stmt := some stmt } : SQLQueryResult).held := by
  refine List.perm_iff_count.mpr fun o => ?_
  simp only [held, hs, Option.toList_none, Option.toList_some, List.map_cons, List.map_nil,
    List.count_append, List.count_nil]
  omega

theorem settles_createStatement (q : SQLQueryResult) (a : Answers) :
    q.Settles (q.newStatement (q.createStatement file a).2.next) []
      (q.createStatement file a).2.next (q.stmt ≠ none ∨ q.Asks file a a.createStatement) := by
  unfold newStatement Asks
  by_cases hs : q.stmt = none
  · rw [if_pos hs, or_iff_right (fun h => h hs)]
    rcases createStatement_cases file (a := a) hs with
      ⟨hc, conn, stmt, hok, hcr⟩ | ⟨hc, conn, e, herr, hcr⟩ | ⟨hc, hcr⟩
    · rw [hcr]
      refine Or.inr ⟨_, [], rfl, ?_, iff_of_true ⟨hc, fun e he => ?_⟩ rfl⟩
      · rw [List.append_nil]
        exact perm_fill q hs conn stmt
      · exact nomatch hok.symm.trans he
    · rw [hcr, herr, and_iff_right hc, texts_error_iff]
      cases hinfo : catchInfo file e with
      | none => exact settles_undefined rfl Bool.false_ne_true
      | some s =>
          have hnone : (some { q with conn }).bind (fun q => q.stmt) = none := hs
          show q.Settles (((some { q with conn }).bind fun q => q.stmt).toList.map .statement) []
            (some { q with conn }) _
          rw [hnone]
          exact settles_unchanged rfl rfl
    · rw [hcr]
      exact settles_undefined rfl fun h => hc h.1
  · rw [if_neg hs]
    obtain ⟨stmt, hstmt⟩ := Option.ne_none_iff_exists'.mp hs
    have hrun : q.createStatement file a = ([], .returned true q) := by
      simp only [createStatement, hstmt]
    rw [hrun]
    exact settles_unchanged rfl (Or.inl hs)

theorem settles_executeQuerySql (q : SQLQueryResult) (f : Option OnResult) (g : Bool)
    (a : Answers) :
    q.Settles
      (q.newStatement (q.executeQuerySql file f g a).2.next ++
        (executedIn (q.executeQuerySql file f g a).1).map .resultSet) []
      (q.executeQuerySql file f g a).2.next
      (q.HasStatement a ∧ q.KeepsResult file a none f) := by
  unfold newStatement
  rcases executeQuerySql_cases file q f g a with ⟨hhas, conn, stmt, hsame, hrun⟩ | ⟨hnot, hund⟩
  · let q' := { q with onResultFunc := f, onErrorFunc := g, conn, stmt := some stmt }
    obtain ⟨hend, hstmt⟩ := settles_execute file q' a none
    rw [hrun, and_iff_right hhas]
    rcases hend with ⟨hnext, hk⟩ | ⟨q'', lost, hnext, hperm, hk⟩
    · exact settles_undefined hnext hk
    · rw [hnext]
      refine Or.inr ⟨q'', lost, rfl, ?_, hk⟩
      have hstay : q''.stmt = some stmt := hstmt q'' hnext
      have hfound : (q.held ++ if q.stmt = none then
          ((some q'').bind fun q => q.stmt).toList.map DriverObject.statement else []).Perm
            q'.held := by
        by_cases hs : q.stmt = none
        · rw [if_pos hs, Option.bind_some, hstay]
          exact perm_fill q hs conn stmt
        · rw [if_neg hs, List.append_nil, held, hsame hs]
          exact List.Perm.refl _
      rw [← List.append_assoc]
      exact (hfound.append_right _).trans hperm
  · exact settles_undefined (by rw [hund]; rfl) fun h => hnot h.1

/-- What the driver prepares takes the place of what is deleted. -/
theorem settles_prepareStatement (q : SQLQueryResult) (a : Answers) :
    q.Settles (newPreparedStatement (q.prepareStatement file a).2)
      (q.pstmt.toList.map .preparedStatement) (q.prepareStatement file a).2.next
      (q.Asks file a a.prepareStatement) := by
  have hswap : ∀ (conn pstmt : Ptr),
      (q.held ++ pstmt.toList.map DriverObject.preparedStatement).Perm
        (q.pstmt.toList.map DriverObject.preparedStatement ++
          ({ q with conn, pstmt } : SQLQueryResult).held ++ []) := by
    intro conn pstmt
    refine List.perm_iff_count.mpr fun o => ?_
    simp only [held, List.count_append, List.count_nil]
    omega
  unfold Asks
  by_cases hc : q.HasConnection a
  · obtain ⟨conn, hne, hfind⟩ :=
      findConnection_of_hasConnection (q := { q with pstmt := none }) (a := a) hc
    cases hpr : a.prepareStatement with
    | ok pstmt =>
        have hrun : q.prepareStatement file a =
            ([], .returned (some pstmt) { q with conn, pstmt := some pstmt }) := by
          simp [prepareStatement, hfind, hne, hpr]
        rw [hrun]
        exact Or.inr ⟨_, [], rfl, hswap conn (some pstmt),
          iff_of_true ⟨hc, fun e he => nomatch he⟩ rfl⟩
    | error e =>
        rw [and_iff_right hc, texts_error_iff]
        cases hinfo : catchInfo file e with
        | none =>
            have hrun : (q.prepareStatement file a).2 = .undefined := by
              simp [prepareStatement, hfind, hne, hpr, hinfo]
            rw [hrun]
            exact settles_undefined rfl Bool.false_ne_true
        | some s =>
            have hrun : (q.prepareStatement file a).2 =
                .returned none { q with conn, pstmt := none } := by
              simp [prepareStatement, hfind, hne, hpr, hinfo]
            rw [hrun]
            exact Or.inr ⟨_, [], rfl, hswap conn none, iff_of_true rfl rfl⟩
  · have hrun : (q.prepareStatement file a).2 = .undefined := by
      rcases findConnection_of_not_hasConnection (q := { q with pstmt := none }) (a := a) hc with
        hfind | ⟨q', hfind, hconn⟩
      · simp [prepareStatement, hfind]
      · simp [prepareStatement, hfind, hconn]
    rw [hrun]
    exact settles_undefined rfl fun h => hc h.1

/-- **One call.** -/
theorem settles_call (q : SQLQueryResult) (c : Call) :
    q.Settles (q.obtained file c) (q.deleted c) (step file (some q) c) (q.Keeps file c) := by
  cases c with
  | reset =>
      refine Or.inr ⟨_, [], rfl, ?_, iff_of_true trivial rfl⟩
      show (q.held ++ []).Perm (q.held ++ [] ++ [])
      rw [List.append_nil, List.append_nil]
  | createStatement a => exact settles_createStatement file q a
  | prepareStatement a => exact settles_prepareStatement file q a
  | executeQuerySql f g a => exact settles_executeQuerySql file q f g a
  | executeQuery f g a => exact settles_executeQuery file q f g a

end File

end SQLQueryResult

/-! ## Runs -/

/-- An object, if there is one still, and the account of what it has had from the driver. -/
structure Audited where
  object : Option SQLQueryResult
  account : Ledger DriverObject

namespace Audited

open SQLQueryResult

/-- A new object; one made of a connection manager may have any connection. -/
def start (mgr : Bool) (conn : Ptr) : Audited := ⟨some { ofConnection conn with mgr }, .empty⟩

/-- What the object holds. -/
def held (s : Audited) : List DriverObject := s.object.elim [] SQLQueryResult.held

section File

variable (file : CString)

def step (s : Audited) (c : Call) : Audited :=
  match s.object with
  | none => s
  | some q =>
      { object := SQLQueryResult.step file (some q) c
        account := s.account.record (q.obtained file c) (q.deleted c) }

/-- Whatever the getters return has been deleted less often than the driver has handed it out. -/
def Alive (s : Audited) : Prop :=
  ∀ o ∈ s.held, s.account.freed.count o < s.account.made.count o

/-- The object is there, and what it has had from the driver has been deleted, and once. -/
def Conserved (s : Audited) : Prop :=
  s.object.isSome = true ∧ s.account.made.Perm s.account.freed

/-- The object is there, and what it has had from the driver is deleted or held. -/
def Complete (s : Audited) : Prop := s.object.isSome = true ∧ Reconciled s.account s.held

/-- A call that loses nothing. -/
def Keeps (s : Audited) (c : Call) : Prop := ∀ q, s.object = some q → q.Keeps file c

/-- Something may be missing, but nothing has been deleted that was not there. -/
def Inv (s : Audited) : Prop :=
  s.object.isSome = true → ∃ lost, Missing s.account s.held lost

variable {s : Audited}

theorem Inv.alive (hi : s.Inv) : s.Alive := by
  intro o ho
  unfold held at ho
  cases hq : s.object with
  | none =>
      rw [hq] at ho
      exact absurd ho List.not_mem_nil
  | some q =>
      rw [hq] at ho
      obtain ⟨lost, hm⟩ := hi (by rw [hq]; rfl)
      have hcount := List.perm_iff_count.mp hm o
      have hpos : 0 < q.held.count o := List.count_pos_iff.mpr ho
      simp only [held, hq, Option.elim_some, List.count_append] at hcount
      omega

/-- What is missing after a call: the call is undefined, or it adds what it loses. -/
theorem missing_step {q : SQLQueryResult} (hq : s.object = some q) {lost : List DriverObject}
    (h : Missing s.account s.held lost) (c : Call) :
    (s.step file c).object = none ∧ ¬ q.Keeps file c ∨
      (s.step file c).object.isSome = true ∧
        ∃ lost', Missing (s.step file c).account (s.step file c).held (lost ++ lost') ∧
          (q.Keeps file c ↔ lost' = []) := by
  have hstep : s.step file c =
      { object := SQLQueryResult.step file (some q) c
        account := s.account.record (q.obtained file c) (q.deleted c) } := by
    rw [step, hq]
  have hheld : s.held = q.held := by rw [held, hq]; rfl
  rw [hstep]
  rcases settles_call file q c with ⟨hnext, hk⟩ | ⟨q', lost', hnext, hperm, hk⟩
  · exact Or.inl ⟨hnext, hk⟩
  · rw [hnext]
    refine Or.inr ⟨rfl, lost', ?_, hk⟩
    rw [hheld] at h
    exact h.record hperm

theorem inv_step (s : Audited) (c : Call) (hi : s.Inv) : (s.step file c).Inv := by
  intro hsome
  cases hq : s.object with
  | none =>
      have hstay : s.step file c = s := by rw [step, hq]
      rw [hstay] at hsome ⊢
      exact hi hsome
  | some q =>
      obtain ⟨lost, hm⟩ := hi (by rw [hq]; rfl)
      rcases missing_step file hq hm c with ⟨hnone, _⟩ | ⟨_, lost', hm', _⟩
      · rw [hnone] at hsome
        exact absurd hsome Bool.false_ne_true
      · exact ⟨lost ++ lost', hm'⟩

/-- **One call**: nothing is missing after it exactly if nothing was, and it keeps everything. -/
theorem complete_step_iff (s : Audited) (c : Call) (hi : s.Inv) :
    (s.step file c).Complete ↔ s.Complete ∧ s.Keeps file c := by
  unfold Complete Keeps
  cases hq : s.object with
  | none =>
      have hstay : s.step file c = s := by rw [step, hq]
      rw [hstay, hq]
      exact iff_of_false (fun h => nomatch h.1) fun h => nomatch h.1.1
  | some q =>
      obtain ⟨lost, hm⟩ := hi (by rw [hq]; rfl)
      have hkeeps : (∀ q', some q = some q' → q'.Keeps file c) ↔ q.Keeps file c := by simp
      rw [hkeeps, hm.reconciled_iff]
      rcases missing_step file hq hm c with ⟨hnone, hk⟩ | ⟨hsome, lost', hm', hk⟩
      · rw [hnone]
        exact iff_of_false (fun h => nomatch h.1) fun h => hk h.2
      · rw [hm'.reconciled_iff, hk, List.append_eq_nil_iff]
        rw [hsome]
        exact and_assoc.symm

theorem inv_start (mgr : Bool) (conn : Ptr) : (start mgr conn).Inv :=
  fun _ => ⟨[], reconciled_empty⟩

/-- After `reset` nothing is held. -/
theorem conserved_reset_iff (s : Audited) :
    (s.step file .reset).Conserved ↔ (s.step file .reset).Complete := by
  unfold Conserved Complete
  cases hq : s.object with
  | none =>
      have hstay : s.step file .reset = s := by rw [step, hq]
      rw [hstay, hq]
      exact iff_of_false (fun h => nomatch h.1) fun h => nomatch h.1
  | some q =>
      have hheld : (s.step file .reset).held = [] := by
        rw [step, hq]
        rfl
      rw [hheld, Reconciled, Missing, List.append_nil, List.append_nil]

/--
**The objects of the driver are conserved exactly as long as nothing is written over.**

For every run of calls on a new object, whatever the driver, the manager and the
callbacks answer, and a `reset` after it: no getter ever returns what has been deleted,
and in the end each object of the driver has been deleted as often as it was handed out,
if and only if every call has what it goes through, every exception in it has a text, and
no `executeQuery` obtains a result set while there is one.
-/
theorem conserved_iff_keeps (mgr : Bool) (conn : Ptr) (calls : List Call) :
    AllStates (step file) Alive (start mgr conn) (calls ++ [Call.reset]) ∧
        ((calls ++ [Call.reset]).foldl (step file) (start mgr conn)).Conserved ↔
      AllSteps (step file) (Keeps file) (start mgr conn) calls := by
  have halive : AllStates (step file) Alive (start mgr conn) (calls ++ [Call.reset]) :=
    allStates_iff.mpr fun pre _ _ => (invariant (inv_start mgr conn) (inv_step file) pre).alive
  have hcomplete : ((calls ++ [Call.reset]).foldl (step file) (start mgr conn)).Complete ↔
      AllSteps (step file) (Keeps file) (start mgr conn) (calls ++ [Call.reset]) :=
    final_iff_allSteps (inv_start mgr conn) ⟨rfl, reconciled_empty⟩ (inv_step file)
      (fun s c hi h => ((complete_step_iff file s c hi).mp h).1)
      (fun s c hi h => (complete_step_iff file s c hi).trans (and_iff_right h)) _
  rw [allSteps_append] at hcomplete
  rw [and_iff_right halive]
  rw [List.foldl_append] at hcomplete ⊢
  refine (conserved_reset_iff file _).trans (hcomplete.trans (and_iff_left ?_))
  exact ⟨fun _ _ => trivial, trivial⟩

end File

/-- A second query writes over the result set of the first. -/
theorem not_conserved_second_query :
    let s := start false (some 0)
    let again : Answers := { succeeding with executeQuery := .ok 4 }
    let calls : List Call := [.executeQuerySql none false succeeding,
      .executeQuerySql none false again, .reset]
    ¬ (calls.foldl (step (CString.lit "SQLMgr.cpp")) s).Conserved := by
  intro s again calls h
  exact absurd h.2 (by decide)

end Audited

end NanomsgDemo.Sql

import NanomsgDemo.Sql.SQLConnPool

/-!
# Connections with their schema

A connection is made in two steps, `connect` and `setSchema`. `createConnection` catches
a failure of the second like one of the first, and returns what the first has made.
Whatever it returns goes to the pool: at the start, in place of a closed connection, and
when the pool grows.

The runs here are of all the methods of the pool, in any order.
-/

namespace NanomsgDemo.Sql

open Net (Ptr)
open Runs Recycling

/-- Not a `connect` that goes through with a `setSchema` after it that does not. -/
def Connect.Whole : Connect → Prop
  | .connected _ schemaSet => schemaSet = true
  | .failed => True

instance : DecidablePred Connect.Whole := fun c => by
  unfold Connect.Whole
  split <;> infer_instance

namespace SQLConnPool

variable {p q : SQLConnPool} {con : Nat}

/-- The connection is open, and set to the schema of the pool. -/
def Usable (p : SQLConnPool) (con : Nat) : Prop :=
  con ∈ p.conns ∧ p.schemaOf con = some p.schema

instance (p : SQLConnPool) (con : Nat) : Decidable (p.Usable con) :=
  inferInstanceAs (Decidable (_ ∧ _))

/-- Only usable connections wait. -/
def Ready (p : SQLConnPool) : Prop := ∀ con ∈ p.workPool, p.Usable con

/-- Of the connections that have been made since `p`, those that still exist are usable. -/
def MadeUsable (p q : SQLConnPool) : Prop := ∀ con ∈ q.conns, con ∈ p.conns ∨ q.Usable con

/-- `q` is `p` after the driver has been asked for a connection, wherever the answer goes. -/
structure Asked (p q : SQLConnPool) (c : Connect) : Prop where
  schema : q.schema = p.schema
  conns : q.conns = (p.createConnection c).1.conns
  schemaOf : q.schemaOf = (p.createConnection c).1.schemaOf

/-- What a connection is set to does not change while others are made. -/
theorem Asked.schemaOf_eq {c : Connect} (h : Asked p q c) (hcon : con ∈ p.conns) :
    q.schemaOf con = p.schemaOf con := by
  rw [h.schemaOf]
  cases c with
  | failed => rfl
  | connected alloc schemaSet =>
      have hne : con ≠ alloc.addr p.conns := fun he => alloc.fresh p.conns (he ▸ hcon)
      exact Function.update_of_ne hne _ _

theorem Asked.mem {c : Connect} (h : Asked p q c) (hcon : con ∈ p.conns) : con ∈ q.conns := by
  rw [h.conns]
  cases c with
  | failed => exact hcon
  | connected alloc schemaSet => exact List.mem_append_left _ hcon

theorem Asked.usable_iff {c : Connect} (h : Asked p q c) (hcon : con ∈ p.conns) :
    q.Usable con ↔ p.Usable con := by
  unfold Usable
  rw [h.schemaOf_eq hcon, h.schema]
  exact and_congr_left fun _ => iff_of_true (h.mem hcon) hcon

/-- **What is made is usable exactly if its schema could be set.** -/
theorem Asked.new_usable_iff {alloc : Allocator} {schemaSet : Bool}
    (h : Asked p q (.connected alloc schemaSet)) :
    q.Usable (alloc.addr p.conns) ↔ schemaSet = true := by
  have hmem : alloc.addr p.conns ∈ q.conns := by
    rw [h.conns]
    exact List.mem_append_right _ (List.mem_singleton_self _)
  have hset : q.schemaOf (alloc.addr p.conns) = if schemaSet then some p.schema else none := by
    rw [h.schemaOf]
    exact Function.update_self ..
  unfold Usable
  rw [hset, h.schema]
  cases schemaSet with
  | true => exact ⟨fun _ => rfl, fun _ => ⟨hmem, rfl⟩⟩
  | false => exact iff_of_false (fun hu => nomatch hu.2) Bool.false_ne_true

/-- One connection more, seen from where the making began. -/
theorem Asked.madeUsable_iff {o : SQLConnPool} {c : Connect} (h : Asked p q c)
    (hmem : ∀ con ∈ o.conns, con ∈ p.conns) :
    MadeUsable o q ↔ MadeUsable o p ∧ c.Whole := by
  have hold : (∀ con ∈ p.conns, con ∈ o.conns ∨ q.Usable con) ↔ MadeUsable o p :=
    forall₂_congr fun con hcon => or_congr_right (h.usable_iff hcon)
  cases c with
  | failed =>
      unfold MadeUsable at hold ⊢
      rw [h.conns]
      exact hold.trans (iff_of_eq (and_true _)).symm
  | connected alloc schemaSet =>
      have hnew : alloc.addr p.conns ∉ o.conns := fun hin => alloc.fresh _ (hmem _ hin)
      have hconns : q.conns = p.conns ++ [alloc.addr p.conns] := h.conns
      unfold MadeUsable at hold ⊢
      rw [hconns, List.forall_mem_append, hold, List.forall_mem_singleton, or_iff_right hnew,
        h.new_usable_iff]
      exact Iff.rfl

/-! ## The three ways into the pool -/

theorem asked_initOne (p : SQLConnPool) (c : Connect) : Asked p (p.initOne c) c := by
  cases c with
  | failed => exact ⟨rfl, rfl, rfl⟩
  | connected alloc schemaSet => exact ⟨rfl, rfl, rfl⟩

/-- `q` is `p` after some passes of `initConnection`. -/
structure Filled (p q : SQLConnPool) : Prop where
  schema : q.schema = p.schema
  mem : ∀ con ∈ p.conns, con ∈ q.conns
  schemaOf : ∀ con ∈ p.conns, q.schemaOf con = p.schemaOf con
  stays : ∀ con ∈ p.workPool, con ∈ q.workPool
  comes : ∀ con ∈ q.workPool, con ∈ p.workPool ∨ con ∈ q.conns ∧ con ∉ p.conns

theorem Filled.refl (p : SQLConnPool) : Filled p p :=
  ⟨rfl, fun _ h => h, fun _ _ => rfl, fun _ h => h, fun _ h => Or.inl h⟩

theorem Filled.initOne (h : Filled p q) (c : Connect) : Filled p (q.initOne c) := by
  have hasked := asked_initOne q c
  refine ⟨hasked.schema.trans h.schema, fun con hcon => hasked.mem (h.mem con hcon),
    fun con hcon => (hasked.schemaOf_eq (h.mem con hcon)).trans (h.schemaOf con hcon), ?_, ?_⟩
  · intro con hcon
    cases c with
    | failed => exact h.stays con hcon
    | connected alloc schemaSet => exact List.mem_append_left _ (h.stays con hcon)
  · intro con hcon
    have hold : con ∈ q.workPool → con ∈ p.workPool ∨ con ∈ (q.initOne c).conns ∧ con ∉ p.conns :=
      fun hq => (h.comes con hq).imp_right fun hnew => ⟨hasked.mem hnew.1, hnew.2⟩
    cases c with
    | failed => exact hold hcon
    | connected alloc schemaSet =>
        rcases List.mem_append.mp hcon with hq | hnew
        · exact hold hq
        · obtain rfl := List.mem_singleton.mp hnew
          refine Or.inr ⟨List.mem_append_right _ (List.mem_singleton_self _), ?_⟩
          exact fun hin => alloc.fresh q.conns (h.mem _ hin)

/-- The passes of the loop: all they make is usable exactly if none of them stops halfway. -/
theorem filled_initConnection (p : SQLConnPool) (count : Int32) (connects : Nat → Connect) :
    Filled p (p.initConnection count connects) ∧
      (MadeUsable p (p.initConnection count connects) ↔
        ∀ i < count.toInt.toNat, (connects i).Whole) := by
  unfold initConnection
  induction count.toInt.toNat with
  | zero => exact ⟨Filled.refl p, iff_of_true (fun _ h => Or.inl h) (fun _ h => nomatch h)⟩
  | succ n ih =>
      obtain ⟨hfilled, hmade⟩ := ih
      rw [List.range_succ, List.foldl_append, List.foldl_cons, List.foldl_nil]
      refine ⟨hfilled.initOne _, ?_⟩
      rw [(asked_initOne _ (connects n)).madeUsable_iff hfilled.mem, hmade]
      exact Nat.forall_lt_succ_right.symm

/-- What comes is usable; so the pool is as ready as it was. -/
theorem Filled.ready_iff (h : Filled p q) (hmade : MadeUsable p q)
    (hopen : ∀ con ∈ p.workPool, con ∈ p.conns) : q.Ready ↔ p.Ready := by
  refine ⟨fun hq con hcon => ⟨hopen con hcon, ?_⟩, fun hp con hcon => ?_⟩
  · rw [← h.schemaOf con (hopen con hcon), ← h.schema]
    exact (hq con (h.stays con hcon)).2
  · rcases h.comes con hcon with hold | ⟨hnew, hout⟩
    · refine ⟨h.mem con (hopen con hold), ?_⟩
      rw [h.schemaOf con (hopen con hold), h.schema]
      exact (hp con hold).2
    · exact (hmade con hnew).resolve_left hout

/-- `createConnPool` may name another schema, which the waiting connections are not set to. -/
theorem ready_resettle_iff (h : p.Ready) (hconns : q.conns = p.conns)
    (hwork : q.workPool = p.workPool) (hset : q.schemaOf = p.schemaOf) :
    q.Ready ↔ p.workPool = [] ∨ q.schema = p.schema := by
  unfold Ready Usable
  rw [hconns, hwork, hset]
  refine ⟨fun hq => ?_, fun hq con hcon => ?_⟩
  · rcases hfirst : p.workPool with _ | ⟨con, rest⟩
    · exact Or.inl rfl
    · have hcon : con ∈ p.workPool := hfirst ▸ List.mem_cons_self
      exact Or.inr (Option.some.inj ((hq con hcon).2.symm.trans (h con hcon).2))
  · rcases hq with hempty | hsame
    · rw [hempty] at hcon
      exact absurd hcon List.not_mem_nil
    · rw [hsame]
      exact h con hcon

/-- **`createConnPool`.** -/
theorem createConnPool_iff (h : p.Ready) (hostName userName password schema : String)
    (maxsize : Int32) (driver : Bool) (connects : Nat → Connect) :
    MadeUsable p (p.createConnPool hostName userName password schema maxsize driver connects).1 ∧
        (p.createConnPool hostName userName password schema maxsize driver connects).1.Ready ↔
      (p.workPool = [] ∨ schema = p.schema) ∧
        (driver = true → ∀ i < (maxsize / 2).toInt.toNat, (connects i).Whole) := by
  have hopen : ∀ con ∈ p.workPool, con ∈ p.conns := fun con hcon => (h con hcon).1
  cases driver with
  | false =>
      have hready := ready_resettle_iff (q := { p with
        maxsize, hostname := hostName, username := userName, password, schema }) h rfl rfl rfl
      have hmade : MadeUsable p { p with
        maxsize, hostname := hostName, username := userName, password, schema } :=
        fun _ hcon => Or.inl hcon
      refine (and_iff_right hmade).trans (hready.trans ?_)
      exact (and_iff_left fun hf => nomatch hf).symm
  | true =>
      let p' := { p with
        maxsize, hostname := hostName, username := userName, password, schema, driver := true }
      have hready : p'.Ready ↔ p.workPool = [] ∨ schema = p.schema :=
        ready_resettle_iff h rfl rfl rfl
      obtain ⟨hfilled, hmade⟩ := filled_initConnection p' (maxsize / 2) connects
      rw [← hready, forall_prop_of_true rfl, ← hmade, and_comm]
      exact and_congr_left fun hm => hfilled.ready_iff hm hopen

/-- The connection that `getConnection` deletes because it is closed. -/
def deleted (p : SQLConnPool) : IsClosed → List Nat
  | .yes => p.workPool.take 1
  | _ => []

/-- `getConnection` asks the driver: in place of a closed connection, or for one more. -/
def Creates (p : SQLConnPool) (closed : IsClosed) : Prop :=
  p.driver = true ∧
    (p.workPool ≠ [] ∧ closed = .yes ∨
      p.workPool = [] ∧ p.workingPool.length < toSize p.maxsize)

instance (p : SQLConnPool) (closed : IsClosed) : Decidable (p.Creates closed) :=
  inferInstanceAs (Decidable (_ ∧ _))

/-- What is lent goes past the waiting ones. -/
theorem workPool_lend (p : SQLConnPool) (c : Connect) : (p.lend c).1.workPool = p.workPool := by
  unfold lend
  split
  · cases c with
    | failed => rfl
    | connected alloc schemaSet => rfl
  · rfl

/-- **Lending what the driver makes**: it is all usable exactly if nothing stops halfway. -/
theorem lend_spec (p : SQLConnPool) (c : Connect) (h : p.Ready) :
    (p.lend c).1.Ready ∧
      ((∀ con ∈ (p.lend c).2.conns, (p.lend c).1.Usable con) ↔ (p.driver = true → c.Whole)) ∧
      ((p.driver = true → c.Whole) → MadeUsable p (p.lend c).1) := by
  have hstays : ∀ con ∈ p.conns, con ∈ p.conns ∨ p.Usable con := fun _ hcon => Or.inl hcon
  unfold lend
  split
  · rename_i hdriver
    rw [forall_prop_of_true hdriver]
    cases c with
    | failed => exact ⟨h, iff_of_true (List.forall_mem_nil _) trivial, fun _ => hstays⟩
    | connected alloc schemaSet =>
        have hasked : Asked p { (p.createConnection (.connected alloc schemaSet)).1 with
            workingPool := p.workingPool ++ [alloc.addr p.conns] } (.connected alloc schemaSet) :=
          ⟨rfl, rfl, rfl⟩
        refine ⟨fun con hcon => (hasked.usable_iff (h con hcon).1).mpr (h con hcon), ?_, ?_⟩
        · exact List.forall_mem_singleton.trans hasked.new_usable_iff
        · exact fun hc => (hasked.madeUsable_iff fun _ hin => hin).mpr ⟨hstays, hc⟩
  · rename_i hdriver
    exact ⟨h, iff_of_true (List.forall_mem_nil _) fun hd => absurd hd hdriver,
      fun _ => hstays⟩

/-- What `getConnection` is to do: all it makes and hands out is usable; what it deletes is gone. -/
structure HandsOut (p : SQLConnPool) (closed : IsClosed) (r : SQLConnPool × Lent) : Prop where
  made : MadeUsable p r.1
  returned : ∀ con ∈ r.2.conns, r.1.Usable con
  deleted : ∀ con ∈ p.deleted closed, con ∉ r.1.workPool

/-- The first waiting connection is still open, or cannot tell. -/
theorem handsOut_waiting {rest : List Nat} (hwork : p.workPool = con :: rest)
    {closed : IsClosed} (hclosed : closed ≠ .yes) (h : p.Ready) (c : Connect) :
    (p.HandsOut closed (p.getConnection closed c) ∧ (p.getConnection closed c).1.Ready) ∧
      (p.Creates closed → c.Whole) ∧ ∀ con ∈ p.deleted closed, con ∉ p.workPool.tail := by
  have hcon : p.Usable con := h con (hwork ▸ List.mem_cons_self)
  have hrest : ∀ c ∈ rest, p.Usable c := fun c hc => h c (hwork ▸ List.mem_cons_of_mem con hc)
  have hcreates : ¬ p.Creates closed := by
    rintro ⟨_, ⟨_, hyes⟩ | ⟨hempty, _⟩⟩
    · exact hclosed hyes
    · exact List.cons_ne_nil con rest (hwork.symm.trans hempty)
  cases closed with
  | yes => exact absurd rfl hclosed
  | threw =>
      have hr : p.getConnection .threw c = ({ p with workPool := rest }, .threw) := by
        rw [getConnection, hwork]
      rw [hr]
      exact ⟨⟨⟨fun _ hc => Or.inl hc, List.forall_mem_nil _, List.forall_mem_nil _⟩, hrest⟩,
        fun hc => absurd hc hcreates, List.forall_mem_nil _⟩
  | no =>
      have hr : p.getConnection .no c =
          ({ p with workPool := rest, workingPool := p.workingPool ++ [con] },
            .returned (some con)) := by
        rw [getConnection, hwork]
      rw [hr]
      exact ⟨⟨⟨fun _ hc => Or.inl hc, List.forall_mem_singleton.mpr hcon,
        List.forall_mem_nil _⟩, hrest⟩, fun hc => absurd hc hcreates, List.forall_mem_nil _⟩

/-- The first waiting connection is closed: it is deleted, and another is made in its place. -/
theorem handsOut_closed_iff {rest : List Nat} (hwork : p.workPool = con :: rest) (h : p.Ready)
    (c : Connect) :
    p.HandsOut .yes (p.getConnection .yes c) ∧ (p.getConnection .yes c).1.Ready ↔
      (p.Creates .yes → c.Whole) ∧ ∀ con ∈ p.deleted .yes, con ∉ p.workPool.tail := by
  let p' : SQLConnPool := { p with workPool := rest, conns := p.conns.erase con }
  have hr : p.getConnection .yes c = p'.lend c := by rw [getConnection, hwork]
  have hdeleted : p.deleted .yes = [con] := by
    rw [deleted, hwork, List.take_succ_cons, List.take_zero]
  have hcreates : p.Creates .yes ↔ p'.driver = true :=
    and_iff_left (Or.inl ⟨hwork ▸ List.cons_ne_nil con rest, rfl⟩)
  have hready : con ∉ rest → p'.Ready := by
    intro hout d hd
    obtain ⟨hopen, hset⟩ := h d (hwork ▸ List.mem_cons_of_mem con hd)
    have hne : d ≠ con := fun he => hout (he ▸ hd)
    exact ⟨(List.mem_erase_of_ne hne).mpr hopen, hset⟩
  rw [hr, hcreates, hwork, List.tail_cons]
  constructor
  · rintro ⟨hands, _⟩
    have hout : ∀ con ∈ p.deleted .yes, con ∉ rest := by
      intro d hd
      have := hands.deleted d hd
      rwa [workPool_lend] at this
    have hcon : con ∉ rest := hout con (hdeleted ▸ List.mem_singleton_self con)
    exact ⟨(lend_spec p' c (hready hcon)).2.1.mp hands.returned, hout⟩
  · rintro ⟨hwhole, hout⟩
    have hcon : con ∉ rest := hout con (hdeleted ▸ List.mem_singleton_self con)
    obtain ⟨hnext, hreturned, hmade⟩ := lend_spec p' c (hready hcon)
    refine ⟨⟨?_, hreturned.mpr hwhole, fun d hd => workPool_lend p' c ▸ hout d hd⟩, hnext⟩
    intro d hd
    exact (hmade hwhole d hd).imp_left List.mem_of_mem_erase

/-- None waits, so that the pool may grow. -/
theorem handsOut_growing_iff (hwork : p.workPool = []) (h : p.Ready) (closed : IsClosed)
    (c : Connect) :
    p.HandsOut closed (p.getConnection closed c) ∧ (p.getConnection closed c).1.Ready ↔
      (p.Creates closed → c.Whole) ∧ ∀ con ∈ p.deleted closed, con ∉ p.workPool.tail := by
  have hdeleted : p.deleted closed = [] := by
    cases closed with
    | yes => rw [deleted, hwork, List.take_nil]
    | no => rfl
    | threw => rfl
  have hnone : ∀ l : List Nat, ∀ con ∈ p.deleted closed, con ∉ l := by
    intro l con hcon
    rw [hdeleted] at hcon
    exact absurd hcon List.not_mem_nil
  by_cases hroom : p.workingPool.length < toSize p.maxsize
  · have hr : p.getConnection closed c = p.lend c := by rw [getConnection, hwork, if_pos hroom]
    have hcreates : p.Creates closed ↔ p.driver = true :=
      and_iff_left (Or.inr ⟨hwork, hroom⟩)
    obtain ⟨hready, hreturned, hmade⟩ := lend_spec p c h
    rw [hr, hcreates, and_iff_left (hnone _), and_iff_left hready, ← hreturned]
    exact ⟨fun hands => hands.returned,
      fun hret => ⟨hmade (hreturned.mp hret), hret, hnone _⟩⟩
  · have hr : p.getConnection closed c = (p, .returned none) := by
      rw [getConnection, hwork, if_neg hroom]
    rw [hr]
    refine iff_of_true ⟨⟨fun _ hc => Or.inl hc, List.forall_mem_nil _, hnone _⟩, h⟩
      ⟨?_, hnone _⟩
    rintro ⟨_, ⟨hwait, _⟩ | ⟨_, hlt⟩⟩
    · exact absurd hwork hwait
    · exact absurd hlt hroom

/-- **`getConnection`.** -/
theorem handsOut_iff (h : p.Ready) (closed : IsClosed) (c : Connect) :
    p.HandsOut closed (p.getConnection closed c) ∧ (p.getConnection closed c).1.Ready ↔
      (p.Creates closed → c.Whole) ∧ ∀ con ∈ p.deleted closed, con ∉ p.workPool.tail := by
  rcases hwork : p.workPool with _ | ⟨con, rest⟩
  · rw [← hwork]
    exact handsOut_growing_iff hwork h closed c
  · rw [← hwork]
    by_cases hclosed : closed = .yes
    · subst hclosed
      exact handsOut_closed_iff hwork h c
    · obtain ⟨hands, hcond⟩ := handsOut_waiting hwork hclosed h c
      exact iff_of_true hands hcond

/-- What is recycled waits: it is to be usable. -/
theorem ready_recycleConnection_iff (h : p.Ready) (con : Nat) :
    (p.recycleConnection (some con)).Ready ↔ p.Usable con := by
  show (∀ d ∈ p.workPool ++ [con], p.Usable d) ↔ p.Usable con
  rw [List.forall_mem_append, List.forall_mem_singleton]
  exact and_iff_right h

end SQLConnPool

/-! ## Runs -/

/-- The pool, and whether a null pointer has been used. -/
structure Serving where
  pool : SQLConnPool
  halted : Bool

namespace Serving

/-- A call of one of the methods of the pool. -/
inductive Call where
  | createConnPool (hostName userName password schema : String) (maxsize : Int32)
      (driver : Bool) (connects : Nat → Connect)
  | getConnection (closed : IsClosed) (connect : Connect)
  | recycleConnection (conn : Ptr)
  | destoryConnPool

def start : Serving where
  pool := SQLConnPool.init
  halted := false

def step (s : Serving) (c : Call) : Serving :=
  if s.halted then s
  else
    match c with
    | .createConnPool hostName userName password schema maxsize driver connects =>
        { s with pool := (s.pool.createConnPool hostName userName password schema maxsize driver
            connects).1 }
    | .getConnection closed connect =>
        let r := s.pool.getConnection closed connect
        { pool := r.1, halted := r.2 = .undefined }
    | .recycleConnection conn => { s with pool := s.pool.recycleConnection conn }
    | .destoryConnPool => { s with pool := s.pool.destoryConnPool.1 }

/-- Only usable connections wait. -/
def Ready (s : Serving) : Prop := s.pool.Ready

/--
What a call makes is usable, unless it has been destroyed again, and so is what it hands
out; what it deletes does not wait.
-/
def Proper (s : Serving) : Call → Prop
  | .createConnPool hostName userName password schema maxsize driver connects =>
      s.halted = false → SQLConnPool.MadeUsable s.pool (s.pool.createConnPool hostName userName
        password schema maxsize driver connects).1
  | .getConnection closed connect =>
      s.halted = false → s.pool.HandsOut closed (s.pool.getConnection closed connect)
  | .recycleConnection _ | .destoryConnPool => True

/--
No schema is changed while connections wait; no `setSchema` fails after its `connect`
went through; a closed connection waits only once; what is recycled is usable.
-/
def Careful (s : Serving) : Call → Prop
  | .createConnPool _ _ _ schema maxsize driver connects =>
      s.halted = false → (s.pool.workPool = [] ∨ schema = s.pool.schema) ∧
        (driver = true → ∀ i < (maxsize / 2).toInt.toNat, (connects i).Whole)
  | .getConnection closed connect =>
      s.halted = false → (s.pool.Creates closed → connect.Whole) ∧
        ∀ con ∈ s.pool.deleted closed, con ∉ s.pool.workPool.tail
  | .recycleConnection (some conn) => s.halted = false → s.pool.Usable conn
  | .recycleConnection none | .destoryConnPool => True

instance (s : Serving) (c : Call) : Decidable (s.Careful c) := by
  unfold Careful
  split <;> infer_instance

/-- **One call.** -/
theorem proper_step_iff (s : Serving) (c : Call) (h : s.Ready) :
    s.Proper c ∧ (s.step c).Ready ↔ s.Careful c := by
  rcases hhalt : s.halted with _ | _
  · cases c with
    | createConnPool hostName userName password schema maxsize driver connects =>
        simp only [Proper, Careful, step, hhalt, forall_const, if_neg Bool.false_ne_true]
        exact SQLConnPool.createConnPool_iff h ..
    | getConnection closed connect =>
        simp only [Proper, Careful, step, hhalt, forall_const, if_neg Bool.false_ne_true]
        exact SQLConnPool.handsOut_iff h closed connect
    | recycleConnection conn =>
        cases conn with
        | none =>
            simp only [Proper, Careful, step, hhalt, if_neg Bool.false_ne_true]
            exact iff_of_true ⟨trivial, h⟩ trivial
        | some con =>
            simp only [Proper, Careful, step, hhalt, forall_const, true_and,
              if_neg Bool.false_ne_true]
            exact SQLConnPool.ready_recycleConnection_iff h con
    | destoryConnPool =>
        simp only [Proper, Careful, step, hhalt, if_neg Bool.false_ne_true]
        exact iff_of_true ⟨trivial, List.forall_mem_nil _⟩ trivial
  · have hno : s.halted ≠ false := by simp [hhalt]
    have hstay : s.step c = s := by simp only [step, hhalt, if_true]
    rw [hstay]
    refine iff_of_true ⟨?_, h⟩ ?_
    · cases c <;> first | exact fun hf => absurd hf hno | trivial
    · rcases c with _ | _ | (_ | _) | _ <;> first | exact fun hf => absurd hf hno | trivial

/--
**Only usable connections are handed out, exactly as long as no set-up stops halfway.**

For every run of calls on a new pool, whatever the driver and the connections answer: no
connection ever waits, stays after it was made, or is handed out, without being open and
set to the schema of the pool, if and only if every call of the run is careful.
-/
theorem proper_and_ready_iff (calls : List Call) :
    AllSteps step Proper start calls ∧ AllStates step Ready start calls ↔
      AllSteps step Careful start calls :=
  allSteps_and_allStates_iff (I := fun _ => True) trivial (List.forall_mem_nil _)
    (fun _ _ _ => trivial) (fun s c _ h => proper_step_iff s c h) calls

-- a closed connection is replaced, another cannot be made, and one goes back
example : AllSteps step Careful start
    [.createConnPool "tcp://127.0.0.1:3306" "root" "" "test" 2 true
        fun _ => .connected .above true,
      .getConnection .yes (.connected .above true), .getConnection .no .failed,
      .recycleConnection (some 0), .destoryConnPool] := by
  decide

/-- A `setSchema` fails, and the connection waits all the same. -/
theorem not_proper_halfway :
    ¬ AllStates step Ready start [.createConnPool "tcp://127.0.0.1:3306" "root" "" "test" 2 true
      fun _ => .connected .above false] := by
  intro h
  have hwaits : (0 : Nat) ∈ (start.step (.createConnPool "tcp://127.0.0.1:3306" "root" "" "test" 2
      true fun _ => .connected .above false)).pool.workPool := by decide
  have hset := (h.2 0 hwaits).2
  exact absurd hset (by decide)

end Serving

end NanomsgDemo.Sql

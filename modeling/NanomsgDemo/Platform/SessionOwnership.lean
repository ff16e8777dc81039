import NanomsgDemo.Lib.Ledger
import NanomsgDemo.Platform.Users

/-!
# Who deletes a session

A `SocketSession` that is handed to `Users::add` is deleted by `Users`: by
`restoreCache` along with the entry it is in, or by the destructor. But an entry is
cleared before it goes to the cache, and `add` writes over the entry of a user that is
there already. So the destructor finds the sessions of the live entries only, and
every other session that was handed over has been forgotten.
-/

namespace NanomsgDemo.Platform

open Runs Recycling Accounts

namespace Users

/-- `Users::~Users`: the sessions it deletes. -/
def destroy (u : Users) : List Nat :=
  (u.live.filterMap fun a => (u.heap a).session) ++ u.cache.filterMap fun a => (u.heap a).session

/-- The session that is handed over with a call. -/
def handedBy : Op → List Nat
  | .add _ _ session => session.toList
  | _ => []

/-- The sessions that are deleted in a call. -/
def deletedBy (u : Users) : Op → List Nat
  | .restoreCache => u.restoreCache.2
  | _ => []

/-- The live entry that a call writes over or clears. -/
def overwritten (u : Users) : Op → Option Nat
  | .add _ user _ => u.findUid user.uid
  | .removeUid uid => u.findUid uid
  | .removeUser user => u.findUser user
  | .removeSession session => u.findSession session
  | .removeUserTest => u.live.head?
  | .restoreCache => none

/-- The entry that a call writes over or clears holds no session. -/
def Keeps (u : Users) (op : Op) : Prop :=
  ∀ a, u.overwritten op = some a → (u.heap a).session = none

end Users

/-- The users, with the sessions handed over and those deleted. -/
structure Owning where
  users : Users
  sessions : Ledger Nat

namespace Owning

def init : Owning := ⟨.init, .empty⟩

def step (s : Owning) (op : Users.Op) : Owning :=
  ⟨s.users.step op, s.sessions.record (Users.handedBy op) (s.users.deletedBy op)⟩

/-- The sessions handed over in a run and those deleted in it, the destructor included. -/
def ended (ops : List Users.Op) : Ledger Nat :=
  let s := ops.foldl step init
  s.sessions.record [] s.users.destroy

/-- Each session that has been handed over is deleted once. -/
def DeletedOnce (ops : List Users.Op) : Prop :=
  ∀ session ∈ ops.flatMap Users.handedBy, (ended ops).freed.count session = 1

end Owning

namespace Users

/-- The sessions in the live entries. -/
def holds (u : Users) : List Nat := u.rows.filterMap (·.session)

/-- The session of the entry that a call writes over or clears. -/
def forgets (u : Users) (op : Op) : List Nat :=
  (u.overwritten op).toList.filterMap fun a => (u.heap a).session

variable {u : Users} {a : Nat}

theorem forgets_eq_nil (op : Op) : u.forgets op = [] ↔ u.Keeps op := by
  simp [forgets, Keeps]

instance (u : Users) (op : Op) : Decidable (u.Keeps op) :=
  decidable_of_iff _ (forgets_eq_nil op)

/-! ## What a call does to the sessions -/

/-- Of the entries, one takes the place of another. -/
theorem perm_write (hn : u.live.Nodup) (ha : a ∈ u.live) (us : UserSession) :
    (u.rows ++ [us]).Perm (u.live.map (Function.update u.heap a us) ++ [u.heap a]) := by
  have hout : a ∉ u.live.erase a := hn.not_mem_erase
  have hold : u.rows.Perm (u.heap a :: (u.live.erase a).map u.heap) :=
    (List.perm_cons_erase ha).map u.heap
  have hnew := (List.perm_cons_erase ha).map (Function.update u.heap a us)
  rw [List.map_cons, Function.update_self, map_update_of_notMem hout] at hnew
  refine (hold.append_right _).trans (List.Perm.trans ?_ (hnew.append_right _).symm)
  refine List.perm_append_singleton .. |>.trans ?_
  refine List.Perm.trans (List.Perm.swap ..) ?_
  exact (List.perm_append_singleton (u.heap a) (us :: (u.live.erase a).map u.heap)).symm

/-- An entry that is cleared leaves the live ones. -/
theorem perm_clear (hi : u.Inv) {p : UserSession → Bool} (h : u.first p = some a) :
    u.rows.Perm ((u.removeFirst p).rows ++ [u.heap a]) := by
  have ha : a ∈ u.live := first_mem h
  have hout : a ∉ u.live.erase a := hi.separate.left.not_mem_erase
  have hrows : (u.removeFirst p).rows = (u.live.erase a).map u.heap := by
    simp only [removeFirst, h, rows]
    exact map_update_of_notMem hout
  rw [hrows]
  exact ((List.perm_cons_erase ha).map u.heap).trans (List.perm_append_singleton ..).symm

theorem perm_removeFirst (hi : u.Inv) (p : UserSession → Bool) :
    u.holds.Perm ((u.removeFirst p).holds ++
      (u.first p).toList.filterMap fun a => (u.heap a).session) := by
  cases h : u.first p with
  | none =>
      have hsame : u.removeFirst p = u := by simp only [removeFirst, h]
      rw [hsame]
      simp
  | some a =>
      have hperm := (perm_clear hi h).filterMap (·.session)
      rw [List.filterMap_append] at hperm
      exact hperm

/-- A session comes, and the one that was in the entry goes. -/
theorem perm_add (hi : u.Inv) (alloc : Allocator) (user : UserInfo) (session : Option Nat) :
    (u.holds ++ session.toList).Perm
      ((u.add alloc user session).1.holds ++ u.forgets (.add alloc user session)) := by
  have hrows := rows_add hi alloc user session
  have hsession : session.toList = ([⟨user, session⟩] : List UserSession).filterMap
      (·.session) := by
    cases session <;> rfl
  cases h : u.findUid user.uid with
  | some a =>
      have hperm := (perm_write hi.separate.left (first_mem h) ⟨user, session⟩).filterMap
        (·.session)
      have hforgets : u.forgets (.add alloc user session) =
          ([u.heap a] : List UserSession).filterMap (·.session) := by
        simp only [forgets, overwritten, h]
        rfl
      rw [List.filterMap_append, List.filterMap_append] at hperm
      simp only [add, h, hforgets, hsession]
      exact hperm
  | none =>
      -- the new entry comes last
      have hend : assign UserSession.uid ⟨user, session⟩ u.rows = u.rows ++ [⟨user, session⟩] := by
        refine if_neg ?_
        rintro ⟨us, hus, huid⟩
        exact findUid_eq_none h us hus huid
      have hforgets : u.forgets (.add alloc user session) = [] := by
        simp [forgets, overwritten, h]
      unfold holds
      rw [hrows, hend, hforgets, hsession, List.filterMap_append, List.append_nil]

/-- **What a call does to the sessions in the live entries.** -/
theorem perm_step (hi : u.Inv) (op : Op) :
    (u.holds ++ handedBy op).Perm ((u.step op).holds ++ u.forgets op) := by
  have hremove : ∀ p, (u.holds ++ []).Perm ((u.removeFirst p).holds ++
      (u.first p).toList.filterMap fun a => (u.heap a).session) := by
    intro p
    rw [List.append_nil]
    exact perm_removeFirst hi p
  cases op with
  | add alloc user session => exact perm_add hi alloc user session
  | removeUid uid => exact hremove _
  | removeUser user =>
      cases user with
      | none => exact List.Perm.refl _
      | some user => exact hremove _
  | removeSession session => exact hremove _
  | removeUserTest =>
      have hfirst : u.first (fun _ => true) = u.live.head? := by
        unfold first
        cases u.live <;> rfl
      have h := hremove fun _ => true
      rw [hfirst] at h
      show (u.holds ++ []).Perm (u.removeUserTest.holds ++ u.forgets .removeUserTest)
      rw [removeUserTest_eq]
      exact h
  | restoreCache => exact List.Perm.refl _

theorem deletedBy_eq_nil (hi : u.Inv) (op : Op) : u.deletedBy op = [] := by
  cases op with
  | restoreCache => exact restoreCache_deletes_nothing hi
  | _ => rfl

/-- The destructor finds the sessions in the live entries, and no other. -/
theorem destroy_eq (hi : u.Inv) : u.destroy = u.holds := by
  have hlive : (u.live.filterMap fun a => (u.heap a).session) = u.holds := by
    rw [holds, rows, List.filterMap_map]
    rfl
  have hcache : (u.cache.filterMap fun a => (u.heap a).session) = [] :=
    restoreCache_deletes_nothing hi
  rw [destroy, hlive, hcache, List.append_nil]

end Users

namespace Owning

open Users (Op)

theorem accounted_step (s : Owning) (op : Op) (hi : s.users.Inv) :
    Accounted step sessions (fun s => s.users.holds) (fun s op => s.users.forgets op) s op := by
  refine ⟨Users.handedBy op, [], ?_, Users.perm_step hi op⟩
  show s.sessions.record (Users.handedBy op) (s.users.deletedBy op) = _
  rw [Users.deletedBy_eq_nil hi]

theorem users_foldl (ops : List Op) (s : Owning) :
    (ops.foldl step s).users = ops.foldl Users.step s.users := by
  induction ops generalizing s with
  | nil => rfl
  | cons op ops ih => exact ih (s.step op)

/-- What a run of the account meets, the run of the users meets. -/
theorem allSteps_users (ok : Users → Op → Prop) (ops : List Op) (s : Owning) :
    AllSteps step (fun s op => ok s.users op) s ops ↔ AllSteps Users.step ok s.users ops := by
  induction ops generalizing s with
  | nil => exact Iff.rfl
  | cons op ops ih => exact and_congr_right fun _ => ih (s.step op)

theorem made_foldl (ops : List Op) (s : Owning) :
    (ops.foldl step s).sessions.made = s.sessions.made ++ ops.flatMap Users.handedBy := by
  induction ops generalizing s with
  | nil => exact (List.append_nil _).symm
  | cons op ops ih =>
      rw [List.foldl_cons, ih, List.flatMap_cons, ← List.append_assoc]
      rfl

theorem made_ended (ops : List Op) : (ended ops).made = ops.flatMap Users.handedBy := by
  show (ops.foldl step init).sessions.made ++ [] = _
  rw [List.append_nil, made_foldl]
  rfl

/-- What is missing after the destructor is what the calls have forgotten. -/
theorem missing_ended (ops : List Op) :
    ∃ lost, Missing (ended ops) [] lost ∧
      (lost = [] ↔ AllSteps Users.step Users.Keeps .init ops) := by
  have hi : (ops.foldl step init).users.Inv := by
    rw [users_foldl]
    exact Users.inv_run ops
  have hinit : Reconciled init.sessions init.users.holds := reconciled_empty
  obtain ⟨lost, hend, hiff⟩ := missing_of_reconciled (fun s op hs => Users.inv_step hs op)
    accounted_step Users.inv_init hinit ops
  refine ⟨lost ++ [], hend.record ?_, ?_⟩
  · -- the destructor deletes what is held
    rw [Users.destroy_eq hi]
    simp
  · rw [List.append_nil]
    refine hiff.trans ((allSteps_users (fun u op => u.forgets op = []) ops init).trans ?_)
    exact allSteps_congr (I := fun _ => True) trivial (fun _ _ _ => trivial)
      (fun u op _ => Users.forgets_eq_nil op) ops

/--
**A session is deleted exactly once if its entry is never written over.**

For every run of calls in which no session is handed over twice: each of them is
deleted exactly once, by the end of the destructor, if and only if no call writes over
or clears an entry that holds a session.
-/
theorem deleted_once_iff (ops : List Op) (h : (ops.flatMap Users.handedBy).Nodup) :
    DeletedOnce ops ↔ AllSteps Users.step Users.Keeps .init ops := by
  unfold DeletedOnce
  obtain ⟨lost, hend, hiff⟩ := missing_ended ops
  rw [← made_ended ops] at h ⊢
  rw [← hend.reconciled_iff_freed_once h, hend.reconciled_iff]
  exact hiff

/-- A user without a session leaves, and its entry is taken by one with a session. -/
def handingOver : List Op :=
  [.add .above { uid := 1 } (some 0), .add .above { uid := 2 } none, .removeUid 2,
    .add .above { uid := 3 } (some 1), .restoreCache]

theorem deleted_once_handingOver : DeletedOnce handingOver :=
  (deleted_once_iff handingOver (by decide)).mpr (by decide)

/-- A user is removed by uid, and nobody deletes the session. -/
def removing : List Op := [.add .above { uid := 1 } (some 0), .removeUid 1]

theorem not_deleted_removing :
    (removing.flatMap Users.handedBy).Nodup ∧ ¬ DeletedOnce removing := by
  unfold DeletedOnce
  decide

end Owning

end NanomsgDemo.Platform

import NanomsgDemo.Lib.Recycling
import NanomsgDemo.Lib.Runs
import NanomsgDemo.Net.SocketSession

/-!
# The users of the platform

`PlatformServer/Users.cpp`: the users that are connected, each in a `UserSession`
of its own. An entry that is removed is not deleted; it is cleared, goes to
`_cache`, and is taken out of there for a later user. All methods hold `_m` from
beginning to end, so a run is a list of whole calls.

What the entries say, in the order of `_live`, is a table of users by uid
(`Users.table`), and each method does to that table what its name says
(`table_step`).
-/

namespace NanomsgDemo.Platform

open Net (Ptr)
open Runs Recycling

/-- `USER_INFO`, with the defaults of its constructor. -/
structure UserInfo where
  uid : Int32 := -1
  rid : Int32 := -1
  seat : Int32 := -1
  state : Int32 := -1
  sex : Int32 := -1
  age : Int32 := -1
  name : String := ""
  addr : String := ""
  ext : String := ""
  deriving DecidableEq, Repr

/-- `UserSession`. -/
structure UserSession where
  user : UserInfo
  session : Ptr
  deriving DecidableEq, Repr

namespace UserSession

/--
`UserSession::reset`: a null session, and zeros over the user. Its `memset` goes over
the `std::string` members as well. It is taken to leave empty strings there, as it does
with those of the compiler that the project is built with.
-/
def reset : UserSession where
  user := { uid := 0, rid := 0, seat := 0, state := 0, sex := 0, age := 0 }
  session := none

def uid (us : UserSession) : Int32 := us.user.uid

end UserSession

/-- `Users`: what is in each `UserSession`, and the two lists of them. -/
structure Users where
  heap : Nat → UserSession
  live : List Nat
  cache : List Nat

namespace Users

/-- `Users::Users`. -/
def init : Users where
  heap := fun _ => .reset
  live := []
  cache := []

/-- The loop over `_live`: the first entry that meets the condition. -/
def first (u : Users) (p : UserSession → Bool) : Ptr := u.live.find? fun a => p (u.heap a)

/-- `Users::find` of a uid. -/
def findUid (u : Users) (uid : Int32) : Ptr := u.first fun us => us.user.uid = uid

/-- `Users::find` of a user. -/
def findUser (u : Users) (user : Option UserInfo) : Ptr :=
  match user with
  | some user => u.findUid user.uid
  | none => none

/-- `Users::find` of a session. -/
def findSession (u : Users) (session : Ptr) : Ptr := u.first fun us => us.session = session

/-- `Users::add`; `alloc` is the allocation of a new `UserSession`. -/
def add (u : Users) (alloc : Allocator) (user : UserInfo) (session : Ptr) : Users × Int32 :=
  let entry : UserSession := { user, session }
  match u.findUid user.uid with
  | some a => ({ u with heap := Function.update u.heap a entry }, 0)
  | none =>
      match u.cache with
      | a :: cache =>
          ({ heap := Function.update u.heap a entry, live := u.live ++ [a], cache }, 0)
      | [] =>
          let a := alloc.addr u.live
          ({ heap := Function.update u.heap a entry, live := u.live ++ [a], cache := [] }, 0)

/-- The loop of the `remove`s: the first entry that meets the condition goes to `_cache`. -/
def removeFirst (u : Users) (p : UserSession → Bool) : Users :=
  match u.first p with
  | none => u
  | some a =>
      { heap := Function.update u.heap a .reset
        live := u.live.erase a
        cache := u.cache ++ [a] }

/-- `Users::remove` of a uid. -/
def removeUid (u : Users) (uid : Int32) : Users := u.removeFirst fun us => us.user.uid = uid

/-- `Users::remove` of a user. -/
def removeUser (u : Users) (user : Option UserInfo) : Users :=
  match user with
  | some user => u.removeUid user.uid
  | none => u

/-- `Users::remove` of a session. -/
def removeSession (u : Users) (session : Ptr) : Users :=
  u.removeFirst fun us => us.session = session

/-- `Users::removeUserTest`. -/
def removeUserTest (u : Users) : Users :=
  match u.live with
  | [] => u
  | a :: live =>
      { heap := Function.update u.heap a .reset, live, cache := u.cache ++ [a] }

/-- `Users::restoreCache`, and the sessions it deletes along with the entries. -/
def restoreCache (u : Users) : Users × List Nat :=
  ({ u with cache := [] }, u.cache.filterMap fun a => (u.heap a).session)

/-- A call of one of the methods. -/
inductive Op where
  | add (alloc : Allocator) (user : UserInfo) (session : Ptr)
  | removeUid (uid : Int32)
  | removeUser (user : Option UserInfo)
  | removeSession (session : Ptr)
  | removeUserTest
  | restoreCache

def step (u : Users) : Op → Users
  | .add alloc user session => (u.add alloc user session).1
  | .removeUid uid => u.removeUid uid
  | .removeUser user => u.removeUser user
  | .removeSession session => u.removeSession session
  | .removeUserTest => u.removeUserTest
  | .restoreCache => u.restoreCache.1

/-! ## The invariant -/

/-- What the entries in use say, in the order of `_live`. -/
def rows (u : Users) : List UserSession := u.live.map u.heap

/-- The lists share no entry, no two live entries have one uid, and cached ones are cleared. -/
structure Inv (u : Users) : Prop where
  separate : Separate u.live u.cache
  distinct : (u.rows.map UserSession.uid).Nodup
  cleared : ∀ a ∈ u.cache, u.heap a = .reset

theorem inv_init : init.Inv where
  separate := separate_nil
  distinct := List.nodup_nil
  cleared := by
    intro a ha
    exact absurd ha List.not_mem_nil

variable {u : Users} {p : UserSession → Bool} {a : Nat}

theorem first_mem (h : u.first p = some a) : a ∈ u.live := List.mem_of_find?_eq_some h

theorem first_holds (h : u.first p = some a) : p (u.heap a) := by
  have := List.find?_some h
  exact this

theorem first_eq_none : u.first p = none ↔ ∀ us ∈ u.rows, p us = false := by
  simp [first, rows]

theorem findUid_eq_none {uid : Int32} (h : u.findUid uid = none) :
    ∀ us ∈ u.rows, us.uid ≠ uid := by
  intro us hus huid
  exact absurd huid (of_decide_eq_false (first_eq_none.mp h us hus))

/-- Writing over an entry that is not live leaves the rows alone. -/
theorem rows_write {us : UserSession} (ha : a ∉ u.live) :
    u.live.map (Function.update u.heap a us) = u.rows := map_update_of_notMem ha

/-! ## What the methods do to the rows -/

theorem rows_add (hi : u.Inv) (alloc : Allocator) (user : UserInfo) (session : Ptr) :
    (u.add alloc user session).1.rows = assign UserSession.uid ⟨user, session⟩ u.rows := by
  unfold add
  split
  · rename_i a ha
    have huid : (u.heap a).uid = user.uid := of_decide_eq_true (first_holds ha)
    have hmem : a ∈ u.live := first_mem ha
    exact map_update_eq_assign hi.distinct hmem huid
  · rename_i hnone
    -- no row has the uid, so the new one goes to the end
    have hend : assign UserSession.uid ⟨user, session⟩ u.rows = u.rows ++ [⟨user, session⟩] := by
      refine if_neg ?_
      intro h
      rcases h with ⟨us, hus, huid⟩
      exact findUid_eq_none hnone us hus huid
    have hpush : ∀ a, a ∉ u.live →
        (u.live ++ [a]).map (Function.update u.heap a ⟨user, session⟩) =
          u.rows ++ [⟨user, session⟩] := by
      intro a ha
      rw [List.map_append, rows_write ha, List.map_singleton, Function.update_self]
    rw [hend]
    split
    · rename_i a cache hc
      have hsep := hi.separate
      rw [hc] at hsep
      exact hpush a (hsep.notMem_left List.mem_cons_self)
    · exact hpush _ (alloc.fresh _)

theorem rows_removeFirst (hi : u.Inv) (p : UserSession → Bool) :
    (u.removeFirst p).rows = u.rows.eraseP p := by
  unfold removeFirst
  split
  · rename_i hnone
    refine (List.eraseP_of_forall_not fun us hus => ?_).symm
    simp [first_eq_none.mp hnone us hus]
  · rename_i a ha
    -- the entry that is cleared is not among the remaining ones
    have hout : a ∉ u.live.erase a := hi.separate.left.not_mem_erase
    calc (u.live.erase a).map (Function.update u.heap a .reset)
        = (u.live.erase a).map u.heap := map_update_of_notMem hout
      _ = (u.live.eraseP fun b => p (u.heap b)).map u.heap := by
          rw [erase_eq_eraseP_of_find? ha]
      _ = u.rows.eraseP p := List.eraseP_map.symm

/-- `removeUserTest` removes the first entry, whatever it says. -/
theorem removeUserTest_eq (u : Users) : u.removeUserTest = u.removeFirst fun _ => true := by
  unfold removeUserTest removeFirst first
  cases u.live with
  | nil => rfl
  | cons a live => simp

/-! ## The invariant is kept -/

theorem Inv.add (hi : u.Inv) (alloc : Allocator) (user : UserInfo) (session : Ptr) :
    (u.add alloc user session).1.Inv := by
  have hdistinct : ((u.add alloc user session).1.rows.map UserSession.uid).Nodup := by
    rw [rows_add hi]
    exact distinct_assign hi.distinct
  unfold Users.add at hdistinct ⊢
  split
  · rename_i a ha
    have hmem : a ∈ u.live := first_mem ha
    rw [ha] at hdistinct
    refine ⟨hi.separate, hdistinct, fun b hb => ?_⟩
    have hba : b ≠ a := by
      intro hba
      exact hi.separate.notMem_right hmem (hba ▸ hb)
    exact (Function.update_of_ne hba ..).trans (hi.cleared b hb)
  · rename_i hnone
    rw [hnone] at hdistinct
    split
    · rename_i a cache hc
      simp only [hc] at hdistinct
      have hsep : Separate u.live (a :: cache) := hc ▸ hi.separate
      refine ⟨hsep.reuse, hdistinct, fun b hb => ?_⟩
      have hba : b ≠ a := by
        intro hba
        exact (List.nodup_cons.mp hsep.right).1 (hba ▸ hb)
      refine (Function.update_of_ne hba ..).trans (hi.cleared b ?_)
      rw [hc]
      exact List.mem_cons_of_mem a hb
    · rename_i hc
      simp only [hc] at hdistinct
      have hsep : Separate u.live [] := hc ▸ hi.separate
      refine ⟨hsep.push (alloc.fresh _) List.not_mem_nil, hdistinct, fun b hb => ?_⟩
      exact absurd hb List.not_mem_nil

theorem Inv.removeFirst (hi : u.Inv) (p : UserSession → Bool) : (u.removeFirst p).Inv := by
  have hdistinct : ((u.removeFirst p).rows.map UserSession.uid).Nodup := by
    rw [rows_removeFirst hi]
    exact distinct_eraseP hi.distinct
  unfold Users.removeFirst at hdistinct ⊢
  split
  · exact hi
  · rename_i a ha
    rw [ha] at hdistinct
    refine ⟨hi.separate.retire (first_mem ha), hdistinct, fun b hb => ?_⟩
    by_cases hba : b = a
    · subst hba
      exact Function.update_self ..
    · refine (Function.update_of_ne hba ..).trans (hi.cleared b ?_)
      rcases List.mem_append.mp hb with hb | hb
      · exact hb
      · exact absurd (List.mem_singleton.mp hb) hba

theorem Inv.restoreCache (hi : u.Inv) : u.restoreCache.1.Inv where
  separate := hi.separate.clear
  distinct := hi.distinct
  cleared := by
    intro a ha
    exact absurd ha List.not_mem_nil

theorem inv_step (hi : u.Inv) (op : Op) : (u.step op).Inv := by
  cases op with
  | add alloc user session => exact hi.add alloc user session
  | removeUid uid => exact hi.removeFirst _
  | removeUser user =>
      cases user with
      | none => exact hi
      | some user => exact hi.removeFirst _
  | removeSession session => exact hi.removeFirst _
  | removeUserTest =>
      show u.removeUserTest.Inv
      rw [removeUserTest_eq]
      exact hi.removeFirst _
  | restoreCache => exact hi.restoreCache

theorem inv_run (ops : List Op) : (ops.foldl step init).Inv :=
  invariant inv_init (fun _ op hi => inv_step hi op) ops

/-- Cached entries hold no session, so emptying the cache deletes none. -/
theorem restoreCache_deletes_nothing (hi : u.Inv) : u.restoreCache.2 = [] := by
  refine List.filterMap_eq_nil_iff.mpr fun a ha => ?_
  rw [hi.cleared a ha]
  rfl

/-! ## The table of users -/

/-- The users by uid, in the order in which they came. -/
def table (u : Users) (hi : u.Inv) : Table UserSession.uid := ⟨u.rows, hi.distinct⟩

/-- What a call is to do to the table. -/
def tableStep (t : Table UserSession.uid) : Op → Table UserSession.uid
  | .add _ user session => t.set ⟨user, session⟩
  | .removeUid uid => t.removeFirst fun us => us.uid = uid
  | .removeUser none => t
  | .removeUser (some user) => t.removeFirst fun us => us.uid = user.uid
  | .removeSession session => t.removeFirst fun us => us.session = session
  | .removeUserTest => t.removeFirst fun _ => true
  | .restoreCache => t

/-- **Each method does to the table what it is to do.** -/
theorem table_step (hi : u.Inv) (op : Op) :
    (u.step op).table (inv_step hi op) = tableStep (u.table hi) op := by
  refine Table.ext ?_
  show (u.step op).rows = (tableStep (u.table hi) op).rows
  cases op with
  | add alloc user session => exact rows_add hi alloc user session
  | removeUid uid => exact rows_removeFirst hi _
  | removeUser user =>
      cases user with
      | none => rfl
      | some user => exact rows_removeFirst hi _
  | removeSession session => exact rows_removeFirst hi _
  | removeUserTest =>
      show u.removeUserTest.rows = _
      rw [removeUserTest_eq]
      exact rows_removeFirst hi _
  | restoreCache => rfl

theorem table_run (ops : List Op) :
    (ops.foldl step init).table (inv_run ops) = ops.foldl tableStep Table.empty := by
  have hrun : ∀ (u : Users) (hi : u.Inv) (hr : (ops.foldl step u).Inv),
      (ops.foldl step u).table hr = ops.foldl tableStep (u.table hi) := by
    induction ops with
    | nil => intro u _ _; rfl
    | cons op ops ih =>
        intro u hi hr
        have hstep : ops.foldl tableStep (tableStep (u.table hi) op) =
            ops.foldl tableStep ((u.step op).table (inv_step hi op)) := by rw [table_step hi op]
        exact (ih (u.step op) (inv_step hi op) hr).trans hstep.symm
  exact hrun init inv_init (inv_run ops)

/-- The user that is found under a uid. -/
def userOf (u : Users) (uid : Int32) : Option UserSession := (u.findUid uid).map u.heap

theorem userOf_eq_lookup (u : Users) (uid : Int32) :
    u.userOf uid = lookup UserSession.uid uid u.rows := by
  unfold lookup rows
  rw [List.find?_map]
  rfl

theorem userOf_eq_get (hi : u.Inv) (uid : Int32) : u.userOf uid = (u.table hi).get uid :=
  userOf_eq_lookup u uid

/-- To the map of users, `add` is an update. -/
theorem userOf_add (hi : u.Inv) (alloc : Allocator) (user : UserInfo) (session : Ptr) :
    (u.add alloc user session).1.userOf =
      Function.update u.userOf user.uid (some ⟨user, session⟩) := by
  have hstep := table_step hi (.add alloc user session)
  have hget : u.userOf = (u.table hi).get := funext (userOf_eq_get hi)
  rw [hget]
  calc (u.add alloc user session).1.userOf
      = ((u.step (.add alloc user session)).table (inv_step hi _)).get :=
        funext (userOf_eq_get (inv_step hi (.add alloc user session)))
    _ = ((u.table hi).set ⟨user, session⟩).get := congrArg Table.get hstep
    _ = Function.update (u.table hi).get user.uid (some ⟨user, session⟩) :=
        Table.get_set (u.table hi) ⟨user, session⟩

/-- And `remove` of a uid takes its user out of the map. -/
theorem userOf_removeUid (hi : u.Inv) (uid : Int32) :
    (u.removeUid uid).userOf = Function.update u.userOf uid none := by
  have hstep := table_step hi (.removeUid uid)
  have hget : u.userOf = (u.table hi).get := funext (userOf_eq_get hi)
  rw [hget]
  calc (u.removeUid uid).userOf
      = ((u.step (.removeUid uid)).table (inv_step hi _)).get :=
        funext (userOf_eq_get (inv_step hi (.removeUid uid)))
    _ = ((u.table hi).removeFirst fun us => us.uid = uid).get := congrArg Table.get hstep
    _ = Function.update (u.table hi).get uid none := Table.get_removeFirst_key (u.table hi) uid

/-! ## Other users are left alone -/

/-- An `add` does not change the outcome of a search that passes over both the old and the new
entry. -/
theorem first_add_of_neg (hi : u.Inv) (alloc : Allocator) {user : UserInfo} {session : Ptr}
    (hold : ∀ us, us.user.uid = user.uid → p us = false) :
    (u.add alloc user session).1.first p = u.first p := by
  have hnew : p ⟨user, session⟩ = false := hold _ rfl
  have hpush : ∀ a, a ∉ u.live →
      (u.live ++ [a]).find? (fun b => p (Function.update u.heap a ⟨user, session⟩ b)) =
        u.first p := by
    intro a ha
    rw [List.find?_append, find?_update fun h => absurd h ha]
    simp [hnew, first]
  unfold add
  split
  · rename_i a ha
    have huid := first_holds ha
    exact find?_update fun _ => hnew.trans (hold _ (of_decide_eq_true huid)).symm
  · split
    · rename_i a cache hc
      have hsep : Separate u.live (a :: cache) := hc ▸ hi.separate
      exact hpush a (hsep.notMem_left List.mem_cons_self)
    · exact hpush _ (alloc.fresh _)

theorem first_removeFirst_of_neg (hi : u.Inv) {q : UserSession → Bool}
    (hq : ∀ us, q us = true → p us = false) : (u.removeFirst q).first p = u.first p := by
  unfold removeFirst
  split
  · rfl
  · rename_i a ha
    have hout : a ∉ u.live.erase a := hi.separate.left.not_mem_erase
    calc (u.live.erase a).find? (fun b => p (Function.update u.heap a .reset b))
        = (u.live.erase a).find? fun b => p (u.heap b) := find?_update fun h => absurd h hout
      _ = u.first p := find?_erase_of_neg (hq _ (first_holds ha))

/-! ## A finite map -/

/-- `u` is a well-formed representation of the table, and its methods are those of a map. -/
structure RefinesMap (u : Users) (t : Table UserSession.uid) : Prop where
  nodup : (u.live ++ u.cache).Nodup
  uids : (u.live.map fun a => (u.heap a).user.uid).Nodup
  cached : ∀ a ∈ u.cache, (u.heap a).session = none
  find : ∀ uid, u.userOf uid = t.get uid
  add_self : ∀ alloc user session,
    (u.add alloc user session).1.userOf user.uid = some ⟨user, session⟩
  add_other : ∀ alloc user session uid, uid ≠ user.uid →
    (u.add alloc user session).1.findUid uid = u.findUid uid ∧
      (u.add alloc user session).1.userOf uid = u.userOf uid
  remove_self : ∀ uid, (u.removeUid uid).findUid uid = none
  remove_other : ∀ uid uid', uid' ≠ uid →
    (u.removeUid uid).findUid uid' = u.findUid uid' ∧
      (u.removeUid uid).userOf uid' = u.userOf uid'

theorem refinesMap_of_inv (hi : u.Inv) : RefinesMap u (u.table hi) := by
  refine ⟨hi.separate, ?_, ?_, userOf_eq_get hi, ?_, ?_, ?_, ?_⟩
  · have hd := hi.distinct
    rw [rows, List.map_map] at hd
    exact hd
  · intro a ha
    rw [hi.cleared a ha]
    rfl
  · intro alloc user session
    rw [userOf_add hi, Function.update_self]
  · intro alloc user session uid huid
    refine ⟨first_add_of_neg hi alloc ?_, ?_⟩
    · intro us hus
      simp [hus, huid.symm]
    · rw [userOf_add hi, Function.update_of_ne huid]
  · intro uid
    have hnone : (u.removeUid uid).userOf uid = none := by
      rw [userOf_removeUid hi, Function.update_self]
    exact Option.map_eq_none_iff.mp hnone
  · intro uid uid' huid
    refine ⟨first_removeFirst_of_neg hi ?_, ?_⟩
    · intro us hus
      simp [of_decide_eq_true hus, huid.symm]
    · rw [userOf_removeUid hi, Function.update_of_ne huid]

/-- **`Users` is a finite map from uids to users**, after any sequence of calls. -/
theorem users_refines_map (ops : List Op) :
    RefinesMap (ops.foldl step init) (ops.foldl tableStep Table.empty) := by
  rw [← table_run ops]
  exact refinesMap_of_inv (inv_run ops)

end Users

end NanomsgDemo.Platform

import Mathlib.Algebra.Group.Int.Defs
import Mathlib.Algebra.GroupWithZero.Nat
import Mathlib.Data.List.Count
import Mathlib.Data.Option.Basic
import NanomsgDemo.Platform.Users

/-!
# The user table of the platform server

`PlatformServer/PlatformServer.cpp`: `ServerHandler` gives every connection a user
of its own, with the next number as its uid, and takes the user away when the
connection ends. There are three ways to hear of an end, and one connection may
be heard of more than once.

The invariant compares two lists as they are: the sessions that the live entries
hold, and the sessions accepted and not yet ended, both in the order of arrival.
-/

namespace NanomsgDemo.Platform

open Net (Byte Ptr)
open Runs Recycling

/-- `NET_CMD::cmd_connected`. -/
def cmdConnected : Int32 := 101

/-- `ServerHandler`, with the static counter of `onListener`. -/
structure ServerHandler where
  users : Users
  i : Int32

namespace ServerHandler

/-- `ServerHandler::ServerHandler`. -/
def init : ServerHandler where
  users := .init
  i := 0

/--
`ServerHandler::onListener`: the handler afterwards, and the message passed to
`sendData` of the session. `msg` is `msg_connected` as serialized with the current
time, if that works.
-/
def onListener (h : ServerHandler) (alloc : Allocator) (session : Nat)
    (msg : Option (List Byte)) : ServerHandler × Option (Int32 × List Byte) :=
  let user : UserInfo := { uid := h.i }
  ({ users := (h.users.add alloc user (some session)).1, i := h.i + 1 },
    msg.map fun s => (cmdConnected, s))

/-- `ServerHandler::onSocketDisConnect`. -/
def onSocketDisConnect (h : ServerHandler) (session : Nat) : ServerHandler × Int32 :=
  ({ h with users := h.users.removeSession (some session) }, 0)

/-- `ServerHandler::onSocketTimeout`. -/
def onSocketTimeout (h : ServerHandler) (session : Nat) : ServerHandler × Int32 :=
  ({ h with users := h.users.removeSession (some session) }, 0)

/-- `ServerHandler::onSocketError`. -/
def onSocketError (h : ServerHandler) (session : Nat) : ServerHandler × Int32 :=
  ({ h with users := h.users.removeSession (some session) }, 0)

end ServerHandler

/-! ## Runs -/

/-- The handler, the sessions accepted and not yet ended, and how many were accepted in all. -/
structure PlatformServer where
  handler : ServerHandler
  active : List Nat
  accepted : Nat

namespace PlatformServer

inductive Event where
  | accept (alloc : Allocator) (session : Nat) (msg : Option (List Byte))
  | disconnect (session : Nat)
  | timeout (session : Nat)
  | error (session : Nat)

def init : PlatformServer where
  handler := .init
  active := []
  accepted := 0

/-- A session has ended, as `handler` was told. -/
def ended (p : PlatformServer) (handler : ServerHandler) (session : Nat) : PlatformServer :=
  { p with handler, active := p.active.erase session }

def step (p : PlatformServer) : Event → PlatformServer
  | .accept alloc session msg =>
      { handler := (p.handler.onListener alloc session msg).1
        active := p.active ++ [session]
        accepted := p.accepted + 1 }
  | .disconnect session => p.ended (p.handler.onSocketDisConnect session).1 session
  | .timeout session => p.ended (p.handler.onSocketTimeout session).1 session
  | .error session => p.ended (p.handler.onSocketError session).1 session

/-- Fewer than 2^31 connections are accepted, each with a session that is not in use. -/
def Admissible (p : PlatformServer) : Event → Prop
  | .accept _ session _ => session ∉ p.active ∧ p.accepted + 1 < 2 ^ 31
  | _ => True

instance (p : PlatformServer) (e : Event) : Decidable (p.Admissible e) := by
  unfold Admissible
  cases e <;> infer_instance

/-- The entries of `_live` that hold the session. -/
def entriesOf (p : PlatformServer) (session : Ptr) : List Nat :=
  p.handler.users.live.filter fun a => (p.handler.users.heap a).session = session

/-- The user table follows the connections. -/
structure Follows (p : PlatformServer) : Prop where
  one : ∀ s ∈ p.active, (p.entriesOf (some s)).length = 1
  none_other : ∀ s, (∀ t ∈ p.active, s ≠ some t) → p.entriesOf s = []
  uids : (p.handler.users.live.map fun a => (p.handler.users.heap a).user.uid).Nodup
  find : ∀ s ∈ p.active, ∃ a ∈ p.entriesOf (some s),
    p.handler.users.findSession (some s) = some a ∧
      p.handler.users.findUid (p.handler.users.heap a).user.uid = some a

/-- The rows of the table are the connections, and the uids are numbers given out so far. -/
structure Inv (p : PlatformServer) : Prop where
  users : p.handler.users.Inv
  sessions : p.handler.users.rows.map UserSession.session = p.active.map some
  nodup : p.active.Nodup
  counter : p.handler.i.toInt = p.accepted
  given : ∀ us ∈ p.handler.users.rows, us.uid.toInt < p.accepted
  bound : p.accepted < 2 ^ 31

theorem inv_init : init.Inv where
  users := Users.inv_init
  sessions := rfl
  nodup := List.nodup_nil
  counter := rfl
  given := by
    intro us hus
    exact absurd hus List.not_mem_nil
  bound := by
    show 0 < 2 ^ 31
    omega

variable {p : PlatformServer}

/-- The uid of a new connection is not in use. -/
theorem Inv.fresh_uid (hi : p.Inv) : ∀ us ∈ p.handler.users.rows, us.uid ≠ p.handler.i := by
  intro us hus huid
  have hlt := hi.given us hus
  rw [huid, hi.counter] at hlt
  exact absurd hlt (Int.lt_irrefl _)

/-- A connection adds its row at the end. -/
theorem Inv.rows_accept (hi : p.Inv) (alloc : Allocator) (session : Nat)
    (msg : Option (List Byte)) :
    (p.handler.onListener alloc session msg).1.users.rows =
      p.handler.users.rows ++ [⟨{ uid := p.handler.i }, some session⟩] := by
  refine (Users.rows_add hi.users alloc _ _).trans (if_neg ?_)
  intro h
  rcases h with ⟨us, hus, huid⟩
  exact hi.fresh_uid us hus huid

theorem toInt_succ {i : Int32} {n : Nat} (hi : i.toInt = n) (hn : n + 1 < 2 ^ 31) :
    (i + 1).toInt = (n + 1 : Nat) := by
  rw [Int32.toInt_add, hi, Int32.toInt_one]
  have : ((n : Int) + 1).bmod (2 ^ 32) = n + 1 :=
    Int.bmod_eq_of_le (by omega) (by omega)
  omega

theorem inv_accept (hi : p.Inv) {alloc : Allocator} {session : Nat} {msg : Option (List Byte)}
    (hnew : session ∉ p.active) (hbound : p.accepted + 1 < 2 ^ 31) :
    (p.step (.accept alloc session msg)).Inv where
  users := hi.users.add alloc _ _
  sessions := by
    show List.map _ (p.handler.onListener alloc session msg).1.users.rows = _
    rw [hi.rows_accept, List.map_append, hi.sessions]
    show _ = (p.active ++ [session]).map some
    rw [List.map_append]
    rfl
  nodup := by
    show (p.active ++ [session]).Nodup
    rw [← List.concat_eq_append]
    exact List.Nodup.concat hnew hi.nodup
  counter := toInt_succ hi.counter hbound
  given := by
    intro us hus
    have hus : us ∈ (p.handler.onListener alloc session msg).1.users.rows := hus
    rw [hi.rows_accept] at hus
    show us.uid.toInt < (p.accepted + 1 : Nat)
    rcases List.mem_append.mp hus with hus | hus
    · have := hi.given us hus
      omega
    · rw [List.mem_singleton.mp hus]
      show p.handler.i.toInt < _
      rw [hi.counter]
      omega
  bound := hbound

/-- The end of a session takes its row away; if there is none, nothing happens. -/
theorem inv_end (hi : p.Inv) (session : Nat) :
    (p.ended { p.handler with users := p.handler.users.removeSession (some session) }
      session).Inv where
  users := hi.users.removeFirst _
  sessions := by
    show List.map _ (p.handler.users.removeFirst _).rows = (p.active.erase session).map some
    have hsome : ∀ l : List Nat, (l.map some).erase (some session) = (l.erase session).map some :=
      fun l => (List.map_erase (Option.some_injective Nat) l).symm
    rw [Users.rows_removeFirst hi.users, ← hsome, ← hi.sessions, List.erase_eq_eraseP',
      List.eraseP_map]
    refine congrArg (List.map _) (congrArg (fun q => List.eraseP q _) ?_)
    funext us
    exact (beq_eq_decide _ _).symm
  nodup := hi.nodup.erase session
  counter := hi.counter
  given := by
    intro us hus
    have hus : us ∈ (p.handler.users.removeFirst _).rows := hus
    rw [Users.rows_removeFirst hi.users] at hus
    exact hi.given us (List.mem_of_mem_eraseP hus)
  bound := hi.bound

theorem inv_step (hi : p.Inv) (e : Event) (ha : p.Admissible e) : (p.step e).Inv := by
  cases e with
  | accept alloc session msg => exact inv_accept hi ha.1 ha.2
  | disconnect session => exact inv_end hi session
  | timeout session => exact inv_end hi session
  | error session => exact inv_end hi session

/-! ## What the invariant says of the table -/

theorem mem_entriesOf {session : Ptr} {a : Nat} :
    a ∈ p.entriesOf session ↔
      a ∈ p.handler.users.live ∧ (p.handler.users.heap a).session = session := by
  simp [entriesOf]

theorem Inv.length_entriesOf (hi : p.Inv) {s : Nat} (hs : s ∈ p.active) :
    (p.entriesOf (some s)).length = 1 := by
  have hone : (p.handler.users.rows.map UserSession.session).count (some s) = 1 := by
    rw [hi.sessions, List.count_map_of_injective _ _ (Option.some_injective Nat)]
    exact List.count_eq_one_of_mem hi.nodup hs
  rw [Users.rows, List.map_map, List.count, List.countP_map] at hone
  rw [entriesOf, ← List.countP_eq_length_filter, ← hone]
  refine List.countP_congr fun a _ => ?_
  simp

theorem Inv.entriesOf_eq_nil (hi : p.Inv) {s : Ptr} (hs : ∀ t ∈ p.active, s ≠ some t) :
    p.entriesOf s = [] := by
  refine List.eq_nil_iff_forall_not_mem.mpr fun a ha => ?_
  rcases mem_entriesOf.mp ha with ⟨hlive, hsession⟩
  -- an entry that holds `s` makes `s` one of the sessions in use
  have hm : s ∈ p.active.map some := by
    rw [← hi.sessions, Users.rows, List.map_map, ← hsession]
    exact List.mem_map_of_mem (f := UserSession.session ∘ p.handler.users.heap) hlive
  rcases List.mem_map.mp hm with ⟨t, ht, hts⟩
  exact hs t ht hts.symm

theorem Inv.uids (hi : p.Inv) :
    (p.handler.users.live.map fun a => (p.handler.users.heap a).user.uid).Nodup := by
  have hd := hi.users.distinct
  rw [Users.rows, List.map_map] at hd
  exact hd

theorem Inv.find (hi : p.Inv) {s : Nat} (hs : s ∈ p.active) :
    ∃ a ∈ p.entriesOf (some s), p.handler.users.findSession (some s) = some a ∧
      p.handler.users.findUid (p.handler.users.heap a).user.uid = some a := by
  cases hf : p.handler.users.findSession (some s) with
  | none =>
      -- then no entry holds the session
      have hnil : p.entriesOf (some s) = [] := by
        refine List.filter_eq_nil_iff.mpr fun a ha => ?_
        have := List.find?_eq_none.mp hf a ha
        exact this
      have := hi.length_entriesOf hs
      rw [hnil] at this
      exact absurd this (by simp)
  | some a =>
      have hlive : a ∈ p.handler.users.live := Users.first_mem hf
      have hsession := of_decide_eq_true (Users.first_holds hf)
      exact ⟨a, mem_entriesOf.mpr ⟨hlive, hsession⟩, rfl, lookup_of_mem hi.uids hlive⟩

theorem Inv.follows (hi : p.Inv) : p.Follows where
  one := fun _ hs => hi.length_entriesOf hs
  none_other := fun _ hs => hi.entriesOf_eq_nil hs
  uids := hi.uids
  find := fun _ hs => hi.find hs

/--
**The user table follows the connections.**

After each of fewer than 2^31 accepts and of any number of end events, the live
entries are those of the sessions accepted and not yet ended, one for each.
-/
theorem users_follow_connections {evs : List Event} (h : AllSteps step Admissible init evs) :
    AllStates step Follows init evs :=
  (allStates_of_allSteps inv_init (fun _ e hi ha => inv_step hi e ha) h).mono
    fun _ hi => hi.follows

/-- One session ends twice, another takes over its entry and its address. -/
theorem users_follow_reused_session :
    AllStates step Follows init
      [.accept .above 5 none, .accept .above 7 none, .error 5, .disconnect 5,
        .accept .above 5 none, .timeout 7] :=
  users_follow_connections (by decide)

end PlatformServer

end NanomsgDemo.Platform

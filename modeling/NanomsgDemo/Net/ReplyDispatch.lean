import NanomsgDemo.Lib.Runs
import NanomsgDemo.Net.SocketSession

/-!
# Replies

`sendData` can register a callback for the command of the reply, and `__onParse`
looks the command of every incoming message up. `Replying` is a connected session
together with the log of what has been registered.

The lookup is made with `at` as soon as anything is registered at all. So a
message is dispatched as it should be exactly when nothing has been registered
yet, or something has been for its command.
-/

namespace NanomsgDemo.Net

open Runs

/-- A session and the registrations made on it, the most recent first. -/
structure Replying (κ : Type) where
  session : SocketSession κ
  registered : List (Int32 × SocketCallback κ)

/-- What happens to a session. -/
inductive Replying.Act (κ : Type) where
  /-- `sendData` with a callback for `recvcmd`; `write` is `bufferevent_write`. -/
  | sendData (now : UInt32) (cmd : Int32) (object : List Byte) (recvcmd : Int32)
      (cb : SocketCallback κ) (write : Ptr → List Byte → Int32)
  /-- A message for `__onParse`; `answer` is what the callbacks return this time. -/
  | incoming (m : Message) (answer : κ → List Byte → Bool)

/-- A connected session on which nothing has been registered. -/
structure SocketSession.Fresh {κ : Type} (s : SocketSession κ) : Prop where
  connected : s.connected = true
  unregistered : s.cmdEventMap = ∅
  handled : s.handler.isSome = true

namespace Replying

variable {κ : Type}

def step (np : NetPackage) (s : Replying κ) : Act κ → Replying κ
  | .sendData now cmd object recvcmd cb write =>
      ⟨(s.session.sendDataCb np now cmd object recvcmd cb write).1,
        (recvcmd, cb) :: s.registered⟩
  | .incoming _ _ => s

/--
What is to be called for a message: the callback registered last for its command,
and the handler when there is none or when it returns `true`.
-/
def expected (s : Replying κ) (answer : κ → List Byte → Bool) (m : Message) : List (Callout κ) :=
  match s.registered.lookup m.cmd with
  | some (some f) =>
      .callback f m.buf :: if answer f m.buf then [.handler (.onSocketParse m)] else []
  | _ => [.handler (.onSocketParse m)]

/-- An incoming message makes exactly the calls it is to make, and no exception. -/
def Dispatches (s : Replying κ) : Act κ → Prop
  | .sendData .. => True
  | .incoming m answer => s.session.onParse answer m = (s.expected answer m, .returned 0)

/-- Nothing has been registered yet, or something has been for the command that comes in. -/
def Answerable (s : Replying κ) : Act κ → Prop
  | .sendData .. => True
  | .incoming m _ => s.registered = [] ∨ (s.registered.lookup m.cmd).isSome = true

/-- The map holds what was registered last for each command. -/
structure Inv (s : Replying κ) : Prop where
  connected : s.session.connected = true
  handled : s.session.handler.isSome = true
  lookup : ∀ cmd, s.session.cmdEventMap.lookup cmd = s.registered.lookup cmd
  empty : s.session.cmdEventMap.entries.isEmpty = s.registered.isEmpty

theorem inv_init {s : SocketSession κ} (h : s.Fresh) : Inv ⟨s, []⟩ where
  connected := h.connected
  handled := h.handled
  lookup cmd := by rw [h.unregistered]; rfl
  empty := by rw [h.unregistered]; rfl

theorem inv_step (np : NetPackage) (s : Replying κ) (a : Act κ) (h : Inv s) :
    Inv (s.step np a) := by
  cases a with
  | incoming m answer => exact h
  | sendData now cmd object recvcmd cb write =>
      have hsession : (s.step np (.sendData now cmd object recvcmd cb write)).session =
          { s.session with cmdEventMap := s.session.cmdEventMap.insert recvcmd cb } := by
        simp [step, SocketSession.sendDataCb, h.connected]
      refine ⟨?_, ?_, fun k => ?_, ?_⟩
      · rw [hsession]; exact h.connected
      · rw [hsession]; exact h.handled
      · rw [hsession]
        show (s.session.cmdEventMap.insert recvcmd cb).lookup k =
          ((recvcmd, cb) :: s.registered).lookup k
        -- the new entry hides older ones for its command, in the map and in the log
        by_cases hk : k = recvcmd
        · subst hk
          rw [AList.lookup_insert, List.lookup_cons_self]
        · rw [AList.lookup_insert_ne hk, h.lookup k, List.lookup_cons, beq_eq_false_iff_ne.mpr hk]
      · rw [hsession]; rfl

/-- **One message.** -/
theorem dispatches_iff_answerable (s : Replying κ) (a : Act κ) (h : Inv s) :
    s.Dispatches a ↔ s.Answerable a := by
  cases a with
  | sendData => exact Iff.rfl
  | incoming m answer =>
      obtain ⟨hd, hhd⟩ := Option.isSome_iff_exists.mp h.handled
      unfold Dispatches Answerable SocketSession.onParse expected
      simp only [h.empty, h.lookup m.cmd]
      by_cases hnil : s.registered = []
      · simp [hnil, hhd]
      · have hne : s.registered.isEmpty = false := by simpa using hnil
        cases hl : s.registered.lookup m.cmd with
        | none =>
            -- `at` throws
            simp [hnil, hne]
        | some cb =>
            cases cb with
            | none => simp [hne, hhd]
            | some f =>
                by_cases ha : answer f m.buf = true
                · simp [hne, hhd, ha]
                · simp [hne, ha]

/--
**Replies reach the callback registered last, exactly when the lookup cannot miss.**

For every connected session and every run of registrations and messages: each
message makes exactly the calls it is to make and throws nothing, if and only if
each message comes in while nothing is registered at all or when something has
been registered for its command.
-/
theorem allSteps_dispatches_iff (np : NetPackage) (s : SocketSession κ) (hs : s.Fresh)
    (acts : List (Act κ)) :
    AllSteps (step np) Dispatches ⟨s, []⟩ acts ↔ AllSteps (step np) Answerable ⟨s, []⟩ acts :=
  allSteps_congr (inv_init hs) (fun t a h => inv_step np t a h) dispatches_iff_answerable acts

/-- A session as the listener makes it, once created and connected. -/
def accepted (κ : Type) : SocketSession κ :=
  ((SocketSession.init (some 0)).create 0 .Server (some 0) 0 0).1

theorem accepted_fresh (κ : Type) : (accepted κ).Fresh := ⟨rfl, rfl, rfl⟩

/-- A message before any registration, and the reply to a request that registered a callback. -/
theorem allSteps_dispatches_reply :
    AllSteps (step NetPackage.reference) Dispatches ⟨accepted Unit, []⟩
      [.incoming ⟨9, []⟩ fun _ _ => false,
        .sendData 0 1 [] 2 (some ()) fun _ _ => 0,
        .incoming ⟨2, [5]⟩ fun _ _ => false] :=
  (allSteps_dispatches_iff NetPackage.reference (accepted Unit) (accepted_fresh Unit) _).mpr
    ⟨Or.inl rfl, trivial, Or.inr (by decide), trivial⟩

/-- With a callback registered for one command, a message with another one makes `at` throw. -/
theorem not_dispatches_unregistered :
    ¬ AllSteps (step NetPackage.reference) Dispatches ⟨accepted Unit, []⟩
      [.sendData 0 1 [] 2 (some ()) fun _ _ => 0, .incoming ⟨9, []⟩ fun _ _ => false] := by
  intro h
  have hd : (_ : List (Callout Unit) × Outcome) = _ := h.2.1
  exact absurd hd (by decide)

end Replying

/-! ## Sends that fail -/

namespace SocketSession

variable {κ : Type}

/--
`s'` has the callbacks that `s` has, each under its command, and makes of every message
what `s` makes of it.
-/
structure SameReplies (s s' : SocketSession κ) : Prop where
  lookup : ∀ cmd, s'.cmdEventMap.lookup cmd = s.cmdEventMap.lookup cmd
  onParse : ∀ answer m, s'.onParse answer m = s.onParse answer m

/-- Maps with the same entries are empty together. -/
theorem isEmpty_congr {m m' : AList fun _ : Int32 => SocketCallback κ}
    (h : ∀ cmd, m'.lookup cmd = m.lookup cmd) : m'.entries.isEmpty = m.entries.isEmpty := by
  have hnil : ∀ m : AList fun _ : Int32 => SocketCallback κ,
      m.entries.isEmpty = true ↔ ∀ cmd, m.lookup cmd = none := by
    intro m
    refine ⟨fun he cmd => ?_, fun hnone => ?_⟩
    · refine AList.lookup_eq_none.mpr fun hcmd => ?_
      rw [AList.mem_keys, AList.keys, List.isEmpty_iff.mp he] at hcmd
      exact absurd hcmd List.not_mem_nil
    · refine List.isEmpty_iff.mpr (List.eq_nil_iff_forall_not_mem.mpr fun e he => ?_)
      have hsome := AList.mem_lookup_iff.mpr he
      rw [hnone] at hsome
      exact absurd hsome (by simp)
  rw [Bool.eq_iff_iff, hnil, hnil]
  exact forall_congr' fun cmd => by rw [h cmd]

/-- What a session makes of a message depends on its handler and on what it finds in the map. -/
theorem sameReplies_of_lookup {s s' : SocketSession κ} (hh : s'.handler = s.handler)
    (h : ∀ cmd, s'.cmdEventMap.lookup cmd = s.cmdEventMap.lookup cmd) : SameReplies s s' := by
  refine ⟨h, fun answer m => ?_⟩
  unfold SocketSession.onParse
  rw [isEmpty_congr h, h m.cmd, hh]

/-- A callback that is registered leaves the map alone if it is there already. -/
theorem lookup_insert_iff (m : AList fun _ : Int32 => SocketCallback κ) (recvcmd : Int32)
    (cb : SocketCallback κ) :
    (∀ cmd, (m.insert recvcmd cb).lookup cmd = m.lookup cmd) ↔ m.lookup recvcmd = some cb := by
  refine ⟨fun h => ?_, fun h cmd => ?_⟩
  · rw [← h recvcmd]
    exact AList.lookup_insert m
  · by_cases hcmd : cmd = recvcmd
    · subst hcmd
      rw [h]
      exact AList.lookup_insert m
    · exact AList.lookup_insert_ne hcmd

/--
**A send that fails leaves no trace exactly if the callback was there before, or nothing
is sent at all.**

`sendData` registers the callback and then sends. So when the session is connected and
`bufferevent_write` fails, the callback stays registered; only a session that is not
connected returns before.
-/
theorem sameReplies_of_failed_iff (np : NetPackage) (s : SocketSession κ) (now : UInt32)
    (cmd : Int32) (object : List Byte) (recvcmd : Int32) (cb : SocketCallback κ)
    (write : Ptr → List Byte → Int32) :
    ((s.sendDataCb np now cmd object recvcmd cb write).2 < 0 →
        SameReplies s (s.sendDataCb np now cmd object recvcmd cb write).1) ↔
      (s.connected = true → write s.bev (SocketCore.send np now cmd object LwNetMessage.bytes) < 0 →
        s.cmdEventMap.lookup recvcmd = some cb) := by
  unfold sendDataCb
  cases hc : s.connected with
  | false =>
      have hsame : SameReplies s s := ⟨fun _ => rfl, fun _ _ => rfl⟩
      exact ⟨fun _ h => absurd h (by simp), fun _ _ => hsame⟩
  | true =>
      rw [if_pos rfl]
      refine ⟨fun h _ hneg => ?_, fun h hneg => ?_⟩
      · exact (lookup_insert_iff s.cmdEventMap recvcmd cb).mp (h hneg).lookup
      · exact sameReplies_of_lookup rfl
          ((lookup_insert_iff s.cmdEventMap recvcmd cb).mpr (h rfl hneg))

/-- `bufferevent_write` fails, and the callback for the reply that will not come stays. -/
theorem not_sameReplies_failed_write :
    ((Replying.accepted Unit).sendDataCb NetPackage.reference 0 1 [] 2 (some ())
        fun _ _ => -1).2 < 0 ∧
      ¬ SameReplies (Replying.accepted Unit)
        ((Replying.accepted Unit).sendDataCb NetPackage.reference 0 1 [] 2 (some ())
          fun _ _ => -1).1 := by
  refine ⟨by decide, fun h => ?_⟩
  exact absurd (h.lookup 2) (by decide)

end SocketSession

end NanomsgDemo.Net

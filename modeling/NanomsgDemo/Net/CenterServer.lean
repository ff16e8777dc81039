import NanomsgDemo.Lib.Runs
import NanomsgDemo.Net.ManagerT

/-!
# The center server

`CenterServer/CenterServer.cpp` on top of `libnet/socket_server.cpp` and
`ManagerT` of `libnet/session_manager.h`. The server keeps its sessions in a list;
when the handler is told that a connection has ended, it takes the session off the
list and deletes it.

It is told by the session itself, in the middle of `__onEvent`, which goes on to
write to the session afterwards. `CenterServer` tracks which sessions exist, and notes
when one is used that does not: `stale`. Sessions are numbered as they are
constructed, and a number is never used again.
-/

namespace NanomsgDemo.Net

open Runs

/-- `cmd_heart_beat`. -/
def cmd_heart_beat : Int32 := 100

/-- `cmd_connected`. -/
def cmd_connected : Int32 := 101

/-- The server, its sessions and their bufferevents. -/
structure CenterServer where
  /-- The sessions that exist. -/
  sessions : Nat → Option (SocketSession Empty)
  /-- How many sessions have been constructed. -/
  constructed : Nat
  /-- `Sessions`. -/
  manager : ManagerT
  bevs : List Bufferevent
  core : SocketCore
  /-- The packets handed to `sendData` while connected: the session and the command. -/
  sent : List (Nat × Int32)
  /-- A session has been used that has been deleted. -/
  stale : Bool
  /-- Something else has ended the program. -/
  halted : Bool

namespace CenterServer

/-- Before the first connection. -/
def init : CenterServer := ⟨fun _ => none, 0, ⟨[]⟩, [], SocketCore.init, [], false, false⟩

/-- The session `i` becomes `t`. -/
def put (w : CenterServer) (i : Nat) (t : Option (SocketSession Empty)) : CenterServer :=
  { w with sessions := Function.update w.sessions i t }

/-- `session->sendData`. -/
def sendData (w : CenterServer) (i : Nat) (cmd : Int32) : CenterServer :=
  match w.sessions i with
  | none => { w with stale := true }
  | some s => if s.connected then { w with sent := w.sent ++ [(i, cmd)] } else w

/-- `Sessions.remove(session)`. -/
def removeSession (w : CenterServer) (i : Nat) : CenterServer :=
  match w.manager.remove i with
  | (m, true) => { w.put i none with manager := m }
  | (m, false) => { w with manager := m }

/-- The methods of `ServerHandler`, called with session `i`. -/
def handle (w : CenterServer) (i : Nat) : HandlerCall → CenterServer
  | .onSocketConnected => w
  | .onSocketDisConnect | .onSocketTimeout | .onSocketError => w.removeSession i
  | .onSocketParse m => if m.cmd = cmd_heart_beat then w.sendData i cmd_heart_beat else w

/-- `ServerHandler::onListener`. -/
def onListener (w : CenterServer) (i : Nat) : CenterServer :=
  { w with manager := (w.manager.add i).1 }.sendData i cmd_connected

/-- What `__onEvent` does with session `i`, from some point on. -/
def runActs (i : Nat) : CenterServer → List EventAct → CenterServer
  | w, [] => w
  | w, a :: acts =>
      match w.sessions i with
      | none => { w with stale := true }
      | some s =>
          match a with
          | .setConnected b => runActs i (w.put i (some { s with connected := b })) acts
          | .clearBev => runActs i (w.put i (some { s with bev := none })) acts
          | .notify h =>
              match s.handler with
              | none => { w with halted := true }
              | some _ => runActs i (w.handle i h) acts

/-- What happens to the server. -/
inductive Act where
  /-- A connection is accepted, from a peer with this name and port. -/
  | accept (host : String) (port : Int32)
  /-- An event callback of bufferevent `b`. -/
  | event (b : Nat) (ev : BitVec 16)
  /-- A read callback of bufferevent `b`, whose input buffer holds `input`. -/
  | read (b : Nat) (input : List Byte)

/-- The listener's callback. -/
def accept (w : CenterServer) (host : String) (port : Int32) : CenterServer :=
  let i := w.constructed
  let (s, made) := (SocketSession.init (some 0)).create i .Server (some 0) w.bevs.length 0
  let s := (s.setHost host).setPort port
  { w.put i (some s) with
    constructed := i + 1
    bevs := w.bevs ++ made.toList }.onListener i

def step (np : NetPackage) (w : CenterServer) (a : Act) : CenterServer :=
  if w.stale || w.halted then w
  else
    match a with
    | .accept host port => w.accept host port
    | .event b ev =>
        match w.bevs[b]? with
        | some ⟨some i⟩ => runActs i w (eventActs ev)
        | _ => w
    | .read b input =>
        match w.bevs[b]? with
        | some ⟨some i⟩ =>
            match w.sessions i with
            | none => { w with stale := true }
            | some s =>
                let r := s.onRead np (fun f => nomatch f) w.core input
                let w := (handlerCalls r.calls).foldl (fun w h => w.handle i h) w
                { w with core := r.core, halted := w.halted || r.outcome != .returned 0 }
        | _ => w

/-- An event that is a connect, or that `__onEvent` has no name for. -/
def Harmless (w : CenterServer) : Act → Prop
  | .event b ev => w.halted = false → (∃ i, w.bevs[b]? = some ⟨some i⟩) →
      hasFlag ev BEV_EVENT_CONNECTED = true ∨ endNotice ev = none
  | _ => True

/-- The session exists, has a handler, and is in the list. -/
def Managed (w : CenterServer) (i : Nat) : Prop :=
  (∃ s h, w.sessions i = some s ∧ s.handler = some h) ∧ i ∈ w.manager.live

/-- Until one is used that has been deleted, every registered session is there. -/
def Inv (w : CenterServer) : Prop :=
  w.stale = false → ∀ (b i : Nat), w.bevs[b]? = some ⟨some i⟩ → w.Managed i

/-! ## What the handler and `__onEvent` do to a managed session -/

/-- A message changes nothing but what has been sent. -/
theorem handle_parse {w : CenterServer} {i : Nat} {s : SocketSession Empty} {h : HandlerCall}
    (hs : w.sessions i = some s) (hp : h.IsParse) : ∃ sent, w.handle i h = { w with sent } := by
  cases h with
  | onSocketParse m =>
      unfold handle sendData
      simp only [hs]
      split
      · split <;> exact ⟨_, rfl⟩
      · exact ⟨_, rfl⟩
  | _ => exact absurd hp not_false

theorem foldl_handle_parse {i : Nat} {s : SocketSession Empty} {calls : List HandlerCall}
    (hp : ∀ h ∈ calls, h.IsParse) : ∀ {w : CenterServer}, w.sessions i = some s →
      ∃ sent, calls.foldl (fun w h => w.handle i h) w = { w with sent } := by
  induction calls with
  | nil => exact fun _ => ⟨_, rfl⟩
  | cons h calls ih =>
      intro w hs
      obtain ⟨sent, hh⟩ := handle_parse (w := w) hs (hp h (List.mem_cons_self ..))
      rw [List.foldl_cons, hh]
      exact ih (fun g hg => hp g (List.mem_cons_of_mem _ hg)) (w := { w with sent }) hs

theorem handle_end {w : CenterServer} {i : Nat} {ev : BitVec 16} {h : HandlerCall}
    (hn : endNotice ev = some h) : w.handle i h = w.removeSession i := by
  unfold endNotice at hn
  repeat' split at hn
  all_goals first
    | obtain rfl := Option.some.inj hn; rfl
    | simp at hn

section Event

variable {w : CenterServer} {i h : Nat} {s : SocketSession Empty} {ev : BitVec 16}

theorem runActs_connected (hs : w.sessions i = some s) (hh : s.handler = some h)
    (hev : hasFlag ev BEV_EVENT_CONNECTED = true) :
    runActs i w (eventActs ev) = w.put i (some { s with connected := true }) := by
  simp [eventActs, hev, runActs, put, handle, hs, hh]

theorem runActs_unnamed (hs : w.sessions i = some s)
    (hev : hasFlag ev BEV_EVENT_CONNECTED = false) (hn : endNotice ev = none) :
    runActs i w (eventActs ev) = w.put i (some { s with connected := false, bev := none }) := by
  simp [eventActs, hev, hn, runActs, put, hs]

/-- **The end of a connection.** When the handler returns, the session is gone. -/
theorem runActs_end {g : HandlerCall} (hs : w.sessions i = some s) (hh : s.handler = some h)
    (hlive : i ∈ w.manager.live) (hev : hasFlag ev BEV_EVENT_CONNECTED = false)
    (hn : endNotice ev = some g) : (runActs i w (eventActs ev)).stale = true := by
  have hremoved : (w.removeSession i).sessions i = none := by
    simp [removeSession, ManagerT.remove_of_mem hlive, put]
  -- what comes after the notice is `_connected = false`
  simp [eventActs, hev, hn, runActs, hs, hh, handle_end hn, hremoved]

end Event

/-! ## One step -/

theorem Managed.put {w : CenterServer} {i j h : Nat} {s : SocketSession Empty}
    (hj : w.Managed j) (hh : s.handler = some h) : (w.put i (some s)).Managed j := by
  obtain ⟨⟨t, g, ht, hg⟩, hlive⟩ := hj
  refine ⟨?_, hlive⟩
  by_cases hji : j = i
  · exact ⟨s, h, by simp [CenterServer.put, hji], hh⟩
  · exact ⟨t, g, by simpa [CenterServer.put, hji] using ht, hg⟩

theorem step_stopped {np : NetPackage} {w : CenterServer} {a : Act}
    (h : w.stale = true ∨ w.halted = true) : w.step np a = w := by
  unfold step
  rw [if_pos (by simpa using h)]

/-- Accepting a connection adds a session to the list, which is told that it is connected. -/
theorem accept_eq (w : CenterServer) (host : String) (port : Int32) :
    ∃ s : SocketSession Empty, s.handler = some 0 ∧
      w.accept host port =
        { w.put w.constructed (some s) with
          constructed := w.constructed + 1
          manager := (w.manager.add w.constructed).1
          bevs := w.bevs ++ [⟨some w.constructed⟩]
          sent := w.sent ++ [(w.constructed, cmd_connected)] } := by
  refine ⟨((((SocketSession.init (some 0)).create w.constructed .Server (some 0) w.bevs.length
    0).1.setHost host).setPort port), rfl, ?_⟩
  simp [accept, onListener, sendData, put, SocketSession.create, SocketSession.setHost,
    SocketSession.setPort]

/-- A read callback on a managed session leaves sessions and bufferevents as they were. -/
theorem step_read (np : NetPackage) {w : CenterServer} {b i : Nat} (input : List Byte)
    (hst : w.stale = false) (hha : w.halted = false) (hb : w.bevs[b]? = some ⟨some i⟩)
    (hm : w.Managed i) :
    ∃ core sent halted, w.step np (.read b input) = { w with core, sent, halted } := by
  obtain ⟨⟨s, h, hs, _⟩, _⟩ := hm
  obtain ⟨sent, hfold⟩ := foldl_handle_parse (w := w)
    (onRead_onlyParse s (fun f => nomatch f) np w.core input) hs
  unfold step
  simp only [hst, hha, Bool.or_self, Bool.false_eq_true, if_false, hb, hs, hfold]
  exact ⟨_, _, _, rfl⟩

theorem step_event {np : NetPackage} {w : CenterServer} {b i : Nat} {ev : BitVec 16}
    (hst : w.stale = false) (hha : w.halted = false) (hb : w.bevs[b]? = some ⟨some i⟩) :
    w.step np (.event b ev) = runActs i w (eventActs ev) := by
  unfold step
  simp only [hst, hha, Bool.or_self, Bool.false_eq_true, if_false, hb]

/-- A callback of a bufferevent with which no session is registered does nothing. -/
theorem step_unregistered {np : NetPackage} {w : CenterServer} {b : Nat} {a : Act}
    (hb : ∀ i, w.bevs[b]? ≠ some ⟨some i⟩)
    (ha : (∃ ev, a = .event b ev) ∨ ∃ input, a = .read b input) :
    w.step np a = w := by
  unfold step
  split
  · rfl
  · rcases ha with ⟨ev, rfl⟩ | ⟨input, rfl⟩
    · dsimp only
      split
      · rename_i i hi
        exact absurd hi (hb i)
      · rfl
    · dsimp only
      split
      · rename_i i hi
        exact absurd hi (hb i)
      · rfl

/-- An event leaves its session managed, or the session is used when it is gone. -/
theorem step_event_cases (np : NetPackage) {w : CenterServer} {b i : Nat} (ev : BitVec 16)
    (hst : w.stale = false) (hha : w.halted = false) (hb : w.bevs[b]? = some ⟨some i⟩)
    (hm : w.Managed i) :
    ((hasFlag ev BEV_EVENT_CONNECTED = true ∨ endNotice ev = none) ∧
        ∃ s h, s.handler = some h ∧ w.step np (.event b ev) = w.put i (some s)) ∨
      (¬ (hasFlag ev BEV_EVENT_CONNECTED = true ∨ endNotice ev = none) ∧
        (w.step np (.event b ev)).stale = true) := by
  obtain ⟨⟨s, h, hs, hh⟩, hlive⟩ := hm
  rw [step_event hst hha hb]
  by_cases hev : hasFlag ev BEV_EVENT_CONNECTED = true
  · exact Or.inl ⟨Or.inl hev, { s with connected := true }, h, hh, runActs_connected hs hh hev⟩
  · have hev' : hasFlag ev BEV_EVENT_CONNECTED = false := by simpa using hev
    cases hn : endNotice ev with
    | none =>
        exact Or.inl ⟨Or.inr rfl, { s with connected := false, bev := none }, h, hh,
          runActs_unnamed hs hev' hn⟩
    | some g => exact Or.inr ⟨by simp [hev], runActs_end hs hh hlive hev' hn⟩

theorem inv_step (np : NetPackage) (w : CenterServer) (a : Act) (hw : Inv w) :
    Inv (w.step np a) := by
  by_cases hstop : w.stale = true ∨ w.halted = true
  · rwa [step_stopped hstop]
  obtain ⟨hst, hha⟩ : w.stale = false ∧ w.halted = false := by simpa using hstop
  have hman := hw hst
  cases a with
  | accept host port =>
      have hstep : w.step np (.accept host port) = w.accept host port := by
        unfold step; simp [hst, hha]
      obtain ⟨s, hh, hacc⟩ := accept_eq w host port
      rw [hstep, hacc]
      intro _ b i hb
      have hadd := w.manager.mem_add (t := w.constructed) (u := i)
      have hb : (w.bevs ++ [⟨some w.constructed⟩])[b]? = some ⟨some i⟩ := hb
      by_cases hi : i = w.constructed
      · exact ⟨⟨s, 0, by simp [put, hi], hh⟩, hadd.mpr (Or.inr hi)⟩
      · -- a session that was registered before
        have hold : w.bevs[b]? = some ⟨some i⟩ := by
          rcases Nat.lt_or_ge b w.bevs.length with hlt | hge
          · rwa [List.getElem?_append_left hlt] at hb
          · rw [List.getElem?_append_right hge] at hb
            have hmem := List.mem_singleton.mp (List.mem_of_getElem? hb)
            exact absurd (Option.some.inj (congrArg Bufferevent.userdata hmem)) hi
        obtain ⟨⟨t, g, ht, hg⟩, hlive⟩ := (hman b i hold).put (i := w.constructed) hh
        exact ⟨⟨t, g, ht, hg⟩, hadd.mpr (Or.inl hlive)⟩
  | event b ev =>
      by_cases hreg : ∃ i, w.bevs[b]? = some ⟨some i⟩
      · obtain ⟨i, hb⟩ := hreg
        rcases step_event_cases np ev hst hha hb (hman b i hb) with
          ⟨_, s, h, hh, hput⟩ | ⟨_, hstale⟩
        · rw [hput]
          exact fun _ c j hc => (hman c j hc).put hh
        · exact fun hfalse => absurd hfalse (by rw [hstale]; simp)
      · rw [step_unregistered (fun i hi => hreg ⟨i, hi⟩) (Or.inl ⟨ev, rfl⟩)]
        exact hw
  | read b input =>
      by_cases hreg : ∃ i, w.bevs[b]? = some ⟨some i⟩
      · -- neither the sessions nor the list nor the bufferevents change
        obtain ⟨i, hb⟩ := hreg
        obtain ⟨core, sent, halted, hread⟩ :=
          step_read np input hst hha hb (hman b i hb)
        rw [hread]
        exact fun _ => hman
      · rw [step_unregistered (fun i hi => hreg ⟨i, hi⟩) (Or.inr ⟨input, rfl⟩)]
        exact hw

theorem stale_back (np : NetPackage) (w : CenterServer) (a : Act)
    (h : (w.step np a).stale = false) : w.stale = false := by
  by_contra hst
  have hst : w.stale = true := by simpa using hst
  rw [step_stopped (Or.inl hst), hst] at h
  exact absurd h (by simp)

/-- **One step uses no deleted session exactly if it is harmless.** -/
theorem stale_iff_harmless (np : NetPackage) (w : CenterServer) (a : Act) (hw : Inv w)
    (hst : w.stale = false) : (w.step np a).stale = false ↔ w.Harmless a := by
  have hman := hw hst
  by_cases hha : w.halted = true
  · rw [step_stopped (Or.inr hha)]
    cases a <;> simp [Harmless, hst, hha]
  have hha : w.halted = false := by simpa using hha
  cases a with
  | accept host port =>
      obtain ⟨s, _, hacc⟩ := accept_eq w host port
      have hstep : w.step np (.accept host port) = w.accept host port := by
        unfold step; simp [hst, hha]
      rw [hstep, hacc]
      exact ⟨fun _ => trivial, fun _ => hst⟩
  | event b ev =>
      by_cases hreg : ∃ i, w.bevs[b]? = some ⟨some i⟩
      · obtain ⟨i, hb⟩ := hreg
        have hharm : w.Harmless (.event b ev) ↔
            (hasFlag ev BEV_EVENT_CONNECTED = true ∨ endNotice ev = none) :=
          ⟨fun h => h hha ⟨i, hb⟩, fun h _ _ => h⟩
        rw [hharm]
        rcases step_event_cases np ev hst hha hb (hman b i hb) with
          ⟨hok, s, h, _, hput⟩ | ⟨hno, hstale⟩
        · rw [hput]
          exact ⟨fun _ => hok, fun _ => hst⟩
        · rw [hstale]
          exact ⟨fun hfalse => absurd hfalse (by simp), fun hok => absurd hok hno⟩
      · rw [step_unregistered (fun i hi => hreg ⟨i, hi⟩) (Or.inl ⟨ev, rfl⟩)]
        exact ⟨fun _ _ hi => absurd hi hreg, fun _ => hst⟩
  | read b input =>
      by_cases hreg : ∃ i, w.bevs[b]? = some ⟨some i⟩
      · obtain ⟨i, hb⟩ := hreg
        obtain ⟨core, sent, halted, hread⟩ :=
          step_read np input hst hha hb (hman b i hb)
        rw [hread]
        exact ⟨fun _ => trivial, fun _ => hst⟩
      · rw [step_unregistered (fun i hi => hreg ⟨i, hi⟩) (Or.inr ⟨input, rfl⟩)]
        exact ⟨fun _ => trivial, fun _ => hst⟩

/--
**No deleted session is used exactly as long as no connection ends.**

For every run of the center server over any number of connections: neither
`__onRead` nor `__onParse` nor `__onEvent` touches a session that has been
deleted, and the handler is given none, if and only if every event that occurs is
a connect or one that `__onEvent` has no name for.
-/
theorem stale_iff_allSteps_harmless (np : NetPackage) (acts : List Act) :
    (acts.foldl (step np) init).stale = false ↔ AllSteps (step np) Harmless init acts :=
  final_iff_allSteps (P := fun w => w.stale = false) (fun _ b i hb => by simp [init] at hb) rfl
    (inv_step np) (fun w act _ => stale_back np w act) (stale_iff_harmless np) acts

/-- A peer closes its connection: the session is deleted by its handler, and then written to. -/
theorem stale_after_eof :
    ([Act.accept "10.0.0.1" 5000, .event 0 (BEV_EVENT_READING ||| BEV_EVENT_EOF)].foldl
      (step NetPackage.reference) init).stale = true := by
  decide

end CenterServer

end NanomsgDemo.Net

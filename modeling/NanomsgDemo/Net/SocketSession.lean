import Mathlib.Data.List.AList
import NanomsgDemo.Net.SocketCore

/-!
# Sessions

`libnet/socket_session.cpp`: one TCP connection. A session refers to the
bufferevent libevent made for it and to the handler of the application; libevent
calls `__onRead` and `__onEvent` with the session as user data.

Pointers are numbers, `none` is null. What lies outside of the session is an
argument: the bufferevent that is made, the result of a connect or a write, the
answer of a reply callback. `__onEvent` is given as the list of things it does
with its session, in source order, because its handler may delete the session
half way through; `onEvent` runs that list with a handler that does not.
-/

namespace NanomsgDemo.Net

/-- `SESSION_TYPE`. -/
inductive SessionType where
  | NONE
  | Client
  | Server
  deriving DecidableEq, Repr

/-- A pointer: the number of the object, `none` for null. -/
abbrev Ptr := Option Nat

/-- A `SocketCallback` of one of the functions `κ`; `none` is an empty `std::function`. -/
abbrev SocketCallback (κ : Type) := Option κ

/-- The methods of `AbstractSocketSessionHanlder`. -/
inductive HandlerCall where
  | onSocketConnected
  | onSocketDisConnect
  | onSocketTimeout
  | onSocketError
  | onSocketParse (m : Message)
  deriving DecidableEq, Repr

/-- A message is handed on. -/
def HandlerCall.IsParse : HandlerCall → Prop
  | .onSocketParse _ => True
  | _ => False

/-- What a session calls: its handler, or one of its reply callbacks. -/
inductive Callout (κ : Type) where
  | handler (h : HandlerCall)
  | callback (cb : κ) (buf : List Byte)
  deriving DecidableEq, Repr

/-- The calls that go to the handler. -/
def handlerCalls {κ : Type} (calls : List (Callout κ)) : List HandlerCall :=
  calls.filterMap fun
    | .handler h => some h
    | .callback .. => none

/-- `SocketSession`. -/
structure SocketSession (κ : Type) where
  cmdEventMap : AList fun _ : Int32 => SocketCallback κ
  c : SessionType
  host : String
  port : Int32
  connected : Bool
  processor : Ptr
  bev : Ptr
  handler : Ptr

/-- A bufferevent that has not been freed: the session registered with it, if there is one. -/
structure Bufferevent where
  userdata : Ptr
  deriving DecidableEq, Repr

/-! ## The flags of an event -/

def BEV_EVENT_READING : BitVec 16 := 0x01
def BEV_EVENT_WRITING : BitVec 16 := 0x02
def BEV_EVENT_EOF : BitVec 16 := 0x10
def BEV_EVENT_ERROR : BitVec 16 := 0x20
def BEV_EVENT_TIMEOUT : BitVec 16 := 0x40
def BEV_EVENT_CONNECTED : BitVec 16 := 0x80

/-- `ev & flag`, as a condition. -/
def hasFlag (ev flag : BitVec 16) : Bool := ev &&& flag != 0

/-- One thing `__onEvent` does with its session. -/
inductive EventAct where
  | setConnected (b : Bool)
  | clearBev
  | notify (h : HandlerCall)
  deriving DecidableEq, Repr

/-- The `else if` chain of `__onEvent`. -/
def endNotice (ev : BitVec 16) : Option HandlerCall :=
  if hasFlag ev BEV_EVENT_READING then some .onSocketError
  else if hasFlag ev BEV_EVENT_WRITING then some .onSocketError
  else if hasFlag ev BEV_EVENT_EOF then some .onSocketDisConnect
  else if hasFlag ev BEV_EVENT_TIMEOUT then some .onSocketTimeout
  else if hasFlag ev BEV_EVENT_ERROR then some .onSocketError
  else none

/-- `SocketSession::__onEvent`, as what it does, in order. -/
def eventActs (ev : BitVec 16) : List EventAct :=
  if hasFlag ev BEV_EVENT_CONNECTED then [.setConnected true, .notify .onSocketConnected]
  else (endNotice ev).toList.map .notify ++ [.setConnected false, .clearBev]

namespace SocketSession

variable {κ : Type}

/-- `SocketSession::SocketSession`. -/
def init (handler : Ptr) : SocketSession κ where
  cmdEventMap := ∅
  c := .NONE
  host := ""
  port := -1
  connected := false
  processor := none
  bev := none
  handler

/--
`SocketSession::create` on the session `this`. `bev` is what `bufferevent_socket_new`
returns, `con` what `bufferevent_socket_connect` returns; the bufferevent made is
the second result.
-/
def create (s : SocketSession κ) (this : Nat) (c : SessionType) (processor : Ptr) (bev : Nat)
    (con : Int32) : SocketSession κ × Option Bufferevent :=
  let s := { s with c, processor }
  match c with
  | .Server => ({ s with bev := some bev, connected := true }, some ⟨some this⟩)
  | .Client =>
      let s := { s with bev := some bev }
      if 0 ≤ con then (s, some ⟨some this⟩)
      else ({ s with connected := false }, some ⟨none⟩)
  | .NONE => (s, none)

/-- `SocketSession::__reset`. -/
def reset (s : SocketSession κ) : SocketSession κ :=
  { s with connected := false, bev := none, handler := none, host := "", port := -1, c := .NONE }

/-- `SocketSession::destroy`. -/
def destroy (s : SocketSession κ) : SocketSession κ := s.reset

/-- `SocketSession::setHost`. -/
def setHost (s : SocketSession κ) (host : String) : SocketSession κ := { s with host }

/-- `SocketSession::setPort`. -/
def setPort (s : SocketSession κ) (port : Int32) : SocketSession κ := { s with port }

/-- `SocketSession::sendData`: `write` is `bufferevent_write`. -/
def sendData (np : NetPackage) (s : SocketSession κ) (now : UInt32) (cmd : Int32)
    (object : List Byte) (write : Ptr → List Byte → Int32) : Int32 :=
  if s.connected then SocketCore.send np now cmd object fun p => write s.bev p.bytes else -1

/-- `SocketSession::sendData` with a callback for the reply. -/
def sendDataCb (np : NetPackage) (s : SocketSession κ) (now : UInt32) (cmd : Int32)
    (object : List Byte) (recvcmd : Int32) (cb : SocketCallback κ)
    (write : Ptr → List Byte → Int32) : SocketSession κ × Int32 :=
  if s.connected then
    ({ s with cmdEventMap := s.cmdEventMap.insert recvcmd cb },
      SocketCore.send np now cmd object fun p => write s.bev p.bytes)
  else (s, -1)

/--
`SocketSession::__onParse`: what it calls, and how it ends. `answer` is what the
callbacks return.
-/
def onParse (s : SocketSession κ) (answer : κ → List Byte → Bool) (m : Message) :
    List (Callout κ) × Outcome :=
  let found :=
    if s.cmdEventMap.entries.isEmpty then some none
    else s.cmdEventMap.lookup m.cmd
  match found with
  | none => ([], .threw)    -- `at` has no such key
  | some cb =>
      let called := cb.toList.map (.callback · m.buf)
      let goon := match cb with
        | none => true
        | some f => answer f m.buf
      if goon then
        match s.handler with
        | none => (called, .undefined)
        | some _ => (called ++ [.handler (.onSocketParse m)], .returned 0)
      else (called, .returned 0)

/-- The session afterwards, the calls of its handler, and how the event callback ended. -/
def runActs (s : SocketSession κ) : List EventAct → SocketSession κ × List HandlerCall × Outcome
  | [] => (s, [], .returned 0)
  | .setConnected b :: acts => runActs { s with connected := b } acts
  | .clearBev :: acts => runActs { s with bev := none } acts
  | .notify h :: acts =>
      match s.handler with
      | none => (s, [], .undefined)
      | some _ =>
          let r := runActs s acts
          (r.1, h :: r.2.1, r.2.2)

/-- `SocketSession::__onEvent`, with a handler that leaves the session alone. -/
def onEvent (s : SocketSession κ) (ev : BitVec 16) : SocketSession κ × List HandlerCall × Outcome :=
  s.runActs (eventActs ev)

/-- What `__onEvent` writes to its session, when its handler returns. -/
def afterEvent (s : SocketSession κ) (ev : BitVec 16) : SocketSession κ :=
  (eventActs ev).foldl (fun s a =>
    match a with
    | .setConnected b => { s with connected := b }
    | .clearBev => { s with bev := none }
    | .notify _ => s) s

end SocketSession

/-! ## Reading -/

/-- What a read callback did: the core afterwards, the calls of the session, and how it ended. -/
structure ReadCallback (κ : Type) where
  core : SocketCore
  calls : List (Callout κ)
  outcome : Outcome

/-- `bufferevent_read`: what is taken out of the input buffer, and what stays in it. -/
def buffereventRead (input : List Byte) (size : Nat) : List Byte × List Byte :=
  (input.take size, input.drop size)

namespace SocketSession

variable {κ : Type} (np : NetPackage) (s : SocketSession κ) (answer : κ → List Byte → Bool)

/--
A call of `parse` with `__onParse` as its callback: `p` is what it does when all
callbacks return, and the list what is left of the passes through its loop. An
exception of a callback ends the pass it was called in.
-/
def dispatch (p : Parsed) : List Iteration → ReadCallback κ
  | [] => ⟨p.core, [], p.outcome⟩
  | it :: its =>
      match it.call with
      | none => dispatch p its
      | some m =>
          match s.onParse answer m with
          | (calls, .returned _) =>
              let r := dispatch p its
              { r with calls := calls ++ r.calls }
          | (calls, e) => ⟨⟨it.after⟩, calls, e⟩

/-- The loop `while (input_len > 0)` of `__onRead`. -/
def onReadLoop : Nat → SocketCore → List Byte → Nat → ReadCallback κ
  | 0, core, _, _ => ⟨core, [], .outOfFuel⟩
  | fuel + 1, core, input, inputLen =>
      if inputLen = 0 then ⟨core, [], .returned 0⟩
      else
        let (recv, input) := buffereventRead input inputLen
        if 0 < recv.length then
          let p := core.parse np (some recv) (int32 recv.length)
          match s.dispatch answer p p.trace with
          | ⟨core, calls, .returned _⟩ =>
              let r := onReadLoop fuel core input (inputLen - recv.length)
              { r with calls := calls ++ r.calls }
          | r => r
        else onReadLoop fuel core input (inputLen - recv.length)

/-- `SocketSession::__onRead`, when the input buffer of its bufferevent holds `input`. -/
def onRead (core : SocketCore) (input : List Byte) : ReadCallback κ :=
  match s.bev with
  | none => ⟨core, [], .undefined⟩
  | some _ => s.onReadLoop np answer (input.length + 1) core input input.length

end SocketSession

/-! ## Facts about single calls -/

namespace SocketSession

variable {κ : Type}

theorem onEvent_connected {s : SocketSession κ} {ev : BitVec 16} {h : Nat}
    (hh : s.handler = some h) (hev : hasFlag ev BEV_EVENT_CONNECTED = true) :
    s.onEvent ev = ({ s with connected := true }, [.onSocketConnected], .returned 0) := by
  simp [onEvent, eventActs, hev, runActs, hh]

/-- Any other event ends the session, whatever it reports. -/
theorem onEvent_end {s : SocketSession κ} {ev : BitVec 16} {h : Nat} (hh : s.handler = some h)
    (hev : hasFlag ev BEV_EVENT_CONNECTED = false) :
    s.onEvent ev =
      ({ s with connected := false, bev := none }, (endNotice ev).toList, .returned 0) := by
  unfold onEvent eventActs
  rw [if_neg (by simp [hev])]
  cases hn : endNotice ev <;> simp [runActs, hh]

/-- The bufferevent survives an event exactly if that is a connect. -/
theorem afterEvent_bev (s : SocketSession κ) (ev : BitVec 16) :
    (s.afterEvent ev).bev = if hasFlag ev BEV_EVENT_CONNECTED then s.bev else none := by
  cases hev : hasFlag ev BEV_EVENT_CONNECTED with
  | true => simp [afterEvent, eventActs, hev]
  | false => cases hn : endNotice ev <;> simp [afterEvent, eventActs, hev, hn]

theorem onParse_of_empty {s : SocketSession κ} {answer : κ → List Byte → Bool} {m : Message}
    {h : Nat} (hmap : s.cmdEventMap = ∅) (hh : s.handler = some h) :
    s.onParse answer m = ([.handler (.onSocketParse m)], .returned 0) := by
  have hempty : s.cmdEventMap.entries.isEmpty = true := by rw [hmap]; rfl
  simp [onParse, hempty, hh]

/-- The read callback hands everything in the input buffer to one call of `parse`. -/
theorem onRead_eq {np : NetPackage} {s : SocketSession κ} {answer : κ → List Byte → Bool}
    {core : SocketCore} {input : List Byte} {b : Nat} (hb : s.bev = some b) (hne : input ≠ []) :
    s.onRead np answer core input =
      let p := core.parse np (some input) (int32 input.length)
      match s.dispatch answer p p.trace with
      | ⟨core, calls, .returned _⟩ => ⟨core, calls, .returned 0⟩
      | r => r := by
  have hpos := List.length_pos_iff.mpr hne
  obtain ⟨n, hn⟩ : ∃ n, input.length = n + 1 := ⟨input.length - 1, by omega⟩
  unfold onRead
  rw [hb]
  -- one pass takes all of the input, so the second finds `input_len` at zero
  simp only [onReadLoop, buffereventRead, List.take_length, List.drop_length, Nat.sub_self]
  rw [if_neg (by omega), if_pos hpos]
  simp only [hn, onReadLoop, if_true, List.append_nil]

/-- Without reply callbacks the messages of a call of `parse` all reach the handler, in order. -/
theorem dispatch_of_empty {s : SocketSession κ} {answer : κ → List Byte → Bool} {p : Parsed}
    {h : Nat} (hmap : s.cmdEventMap = ∅) (hh : s.handler = some h) (its : List Iteration) :
    s.dispatch answer p its =
      ⟨p.core, (its.filterMap Iteration.call).map fun m => .handler (.onSocketParse m),
        p.outcome⟩ := by
  induction its with
  | nil => rfl
  | cons it its ih =>
      unfold dispatch
      cases hc : it.call with
      | none => simp [ih, hc]
      | some m => simp [onParse_of_empty hmap hh, ih, hc]

end SocketSession

/-! ## What a read callback calls -/

section Read

variable {κ : Type} (s : SocketSession κ) (answer : κ → List Byte → Bool)

theorem handlerCalls_append (l m : List (Callout κ)) :
    handlerCalls (l ++ m) = handlerCalls l ++ handlerCalls m := List.filterMap_append

/-- The handler is only given messages. -/
def OnlyParse (calls : List (Callout κ)) : Prop := ∀ h ∈ handlerCalls calls, h.IsParse

theorem OnlyParse.nil : OnlyParse ([] : List (Callout κ)) := fun _ h => absurd h List.not_mem_nil

theorem OnlyParse.append {l m : List (Callout κ)} (hl : OnlyParse l) (hm : OnlyParse m) :
    OnlyParse (l ++ m) := by
  intro h hh
  rw [handlerCalls_append] at hh
  exact (List.mem_append.mp hh).elim (hl h) (hm h)

theorem onParse_onlyParse (m : Message) : OnlyParse (s.onParse answer m).1 := by
  have hcall : ∀ cb : SocketCallback κ, OnlyParse (cb.toList.map (Callout.callback · m.buf)) := by
    intro cb
    cases cb with
    | none => exact OnlyParse.nil
    | some f => exact OnlyParse.nil (κ := κ)
  have hparse : OnlyParse ([.handler (.onSocketParse m)] : List (Callout κ)) := by
    intro h hh
    rw [List.mem_singleton.mp hh]
    exact trivial
  unfold SocketSession.onParse
  dsimp only
  split
  · exact OnlyParse.nil
  · -- `found` is the callback to be asked, or none
    rename_i cb _
    cases cb with
    | none =>
        cases s.handler with
        | none => exact hcall none
        | some _ => exact (hcall none).append hparse
    | some f =>
        by_cases ha : answer f m.buf = true
        · -- the callback lets the handler have the message as well
          simp only [ha, if_true]
          cases s.handler with
          | none => exact hcall (some f)
          | some _ => exact (hcall (some f)).append hparse
        · simp only [ha]
          exact hcall (some f)

theorem dispatch_onlyParse (p : Parsed) (its : List Iteration) :
    OnlyParse (s.dispatch answer p its).calls := by
  induction its with
  | nil => exact OnlyParse.nil
  | cons it its ih =>
      unfold SocketSession.dispatch
      cases it.call with
      | none => exact ih
      | some m =>
          have hm := onParse_onlyParse s answer m
          dsimp only
          split
          · rename_i hr
            rw [hr] at hm
            exact hm.append ih
          · rename_i hr
            rw [hr] at hm
            exact hm

theorem onRead_onlyParse (np : NetPackage) (core : SocketCore) (input : List Byte) :
    OnlyParse (s.onRead np answer core input).calls := by
  have hloop : ∀ fuel core input n, OnlyParse (s.onReadLoop np answer fuel core input n).calls := by
    intro fuel
    induction fuel with
    | zero => exact fun _ _ _ => OnlyParse.nil
    | succ fuel ih =>
        intro core input n
        unfold SocketSession.onReadLoop
        split
        · exact OnlyParse.nil
        · dsimp only
          split
          · have hd := dispatch_onlyParse s answer
              (core.parse np (some (buffereventRead input n).1)
                (int32 (buffereventRead input n).1.length))
              (core.parse np (some (buffereventRead input n).1)
                (int32 (buffereventRead input n).1.length)).trace
            split
            · rename_i hr
              rw [hr] at hd
              exact hd.append (ih _ _ _)
            · exact hd
          · exact ih _ _ _
  unfold SocketSession.onRead
  split
  · exact OnlyParse.nil
  · exact hloop _ _ _ _

end Read

end NanomsgDemo.Net

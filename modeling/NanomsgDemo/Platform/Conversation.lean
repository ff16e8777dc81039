import NanomsgDemo.Lib.Underway
import NanomsgDemo.Net.CenterServer
import NanomsgDemo.Net.SharedCore

/-!
# Requests and replies

The servers of `PlatformServer/PlatformServer.cpp` and `CenterServer/CenterServer.cpp`
with any number of clients. A server greets each connection it accepts, and answers a
message it is handed on the session it came from. Requests and replies travel as bytes,
which arrive at the other end in pieces of any size and at any time; all sessions of the
server read into one core.

As long as the server does not read from one connection while a part of a packet of
another one waits, the connections do not notice each other: on each of them every
request is handed on once, in order, and the client is handed the greeting and then one
reply after another, each to the request whose turn it is.
-/

namespace NanomsgDemo.Platform

open Net Framing Runs

/-! ## What the servers send -/

def cmd_platform_cs_chat_request : Int32 := 10100004

def cmd_platform_sc_chat_reponse : Int32 := 10140000

/-- The times a handler takes: of the header it sends, and of the message. -/
structure Moment where
  clock : UInt32
  time : Int64

/-- A serialized message, small enough for the header to count the packet. -/
abbrev Payload := { object : List Byte // 14 + object.length < 2 ^ 31 }

/-- `SerializeToArray` of the messages that are sent, `none` if it fails. -/
structure Serializer where
  msgConnected : (time : Int64) → Option Payload
  msgHeartbeat : (time : Int64) → Option Payload
  msgChatReponse : Option Payload

/-- What a `ServerHandler` passes to `sendData` of the session it is called with. -/
structure Handler where
  onListener : Moment → Option (Int32 × Payload)
  onSocketParse : Moment → Message → Option (Int32 × Payload)

/-- `ServerHandler` of the platform server. -/
def platformHandler (pb : Serializer) : Handler where
  onListener t := (pb.msgConnected t.time).map (cmd_connected, ·)
  onSocketParse t m :=
    if m.cmd = cmd_connected then none
    else if m.cmd = cmd_heart_beat then (pb.msgHeartbeat t.time).map (cmd_heart_beat, ·)
    else if m.cmd = cmd_platform_cs_chat_request then
      pb.msgChatReponse.map (cmd_platform_sc_chat_reponse, ·)
    else none

/-- `ServerHandler` of the center server. -/
def centerHandler (pb : Serializer) : Handler where
  onListener t := (pb.msgConnected t.time).map (cmd_connected, ·)
  onSocketParse t m :=
    if m.cmd = cmd_heart_beat then (pb.msgHeartbeat t.time).map (cmd_heart_beat, ·) else none

/-- What is sent. -/
def Moment.sent (t : Moment) (p : Int32 × Payload) : Sent := ⟨t.clock, p.1, p.2.1, p.2.2⟩

/-- The greeting of a connection accepted at some time. -/
def Handler.greeting (h : Handler) (t : Moment) : Option Sent := (h.onListener t).map t.sent

/-- The reply to a message handed on at some time. -/
def Handler.reply (h : Handler) (a : Moment × Message) : Option Sent :=
  (h.onSocketParse a.1 a.2).map a.1.sent

/-! ## Both ends -/

/-- A session that can send and receive, and expects no replies by callback. -/
structure Online extends Attached Empty where
  connected : session.connected = true
  unregistered : session.cmdEventMap = ∅

/-- Its `sendData` writes the packet to its bufferevent. -/
theorem Online.sendData (o : Online) (np : NetPackage) (m : Sent)
    (write : Ptr → List Byte → Int32) :
    o.session.sendData np m.now m.cmd m.object write = write o.session.bev (m.packet np) := by
  unfold SocketSession.sendData
  rw [if_pos o.connected]
  rfl

/-- A connection, with what has happened on it so far and the bytes that are on their way. -/
structure Connection where
  /-- When the server accepted it. -/
  accepted : Option Moment
  /-- What the client has sent. -/
  requested : List Sent
  up : List Byte
  /-- What the server's handler has been handed. -/
  asked : List (Moment × Message)
  /-- What the server has sent. -/
  answered : List Sent
  down : List Byte
  /-- The core of the client's processor. -/
  core : SocketCore
  /-- What the client's handler has been handed. -/
  told : List Message

def Connection.init : Connection := ⟨none, [], [], [], [], [], SocketCore.init, []⟩

/-- The server sends on the connection. -/
def Connection.say (np : NetPackage) (c : Connection) (msgs : List Sent) : Connection :=
  { c with
    answered := c.answered ++ msgs
    down := c.down ++ (msgs.map (Sent.packet np)).flatten }

/-- A server and its connections `ι`; the bytes in its core were read from `owner`. -/
structure Conversation (ι : Type) where
  connections : ι → Connection
  core : SocketCore
  owner : Option ι
  halted : Bool

namespace Conversation

variable {ι : Type}

inductive Act (ι : Type) where
  /-- The server accepts the connection. -/
  | accept (i : ι) (t : Moment)
  /-- The client calls `sendData`. -/
  | request (i : ι) (m : Sent)
  /-- `n` bytes arrive at the server. The messages in them are handed on at the times `t`. -/
  | serverRead (i : ι) (n : Nat) (t : Nat → Moment)
  /-- `n` bytes arrive at the client. -/
  | clientRead (i : ι) (n : Nat)

def init : Conversation ι := ⟨fun _ => Connection.init, SocketCore.init, none, false⟩

/-- The messages of one read callback, with their times. -/
def timed (t : Nat → Moment) (ms : List Message) : List (Moment × Message) :=
  ms.zipIdx.map fun (m, k) => (t k, m)

section Step

variable [DecidableEq ι] (np : NetPackage) (h : Handler) (server client : ι → Online)

/-- The connection `i` becomes `c`. -/
def put (s : Conversation ι) (i : ι) (c : Connection) : Conversation ι :=
  { s with connections := Function.update s.connections i c }

def step (s : Conversation ι) (a : Act ι) : Conversation ι :=
  if s.halted then s
  else
    match a with
    | .accept i t =>
        let c := { s.connections i with accepted := some t }
        s.put i (c.say np (h.greeting t).toList)
    | .request i m =>
        let c := s.connections i
        s.put i { c with requested := c.requested ++ [m], up := c.up ++ m.packet np }
    | .serverRead i n t =>
        let c := s.connections i
        let r := (server i).session.onRead np (fun f => nomatch f) s.core (c.up.take n)
        let asked := timed t (messagesOf r.calls)
        let c := { c with up := c.up.drop n, asked := c.asked ++ asked }
        { s.put i (c.say np (asked.filterMap h.reply)) with
          core := r.core
          owner := some i
          halted := r.outcome != .returned 0 }
    | .clientRead i n =>
        let c := s.connections i
        let r := (client i).session.onRead np (fun f => nomatch f) c.core (c.down.take n)
        { s.put i { c with
            down := c.down.drop n, core := r.core, told := c.told ++ messagesOf r.calls } with
          halted := r.outcome != .returned 0 }

/--
A connection is accepted once. Bytes that have arrived find room, and in the server's
core no bytes of another connection.
-/
def Admissible (s : Conversation ι) : Act ι → Prop
  | .accept i _ => (s.connections i).accepted = none
  | .request _ _ => True
  | .serverRead i n _ =>
      (s.connections i).accepted.isSome ∧ 0 < n ∧ n ≤ (s.connections i).up.length ∧
        (s.core.queued = [] ∨ s.owner = some i) ∧ s.core.queued.length + n < 2 ^ 31
  | .clientRead i n =>
      0 < n ∧ n ≤ (s.connections i).down.length ∧
        (s.connections i).core.queued.length + n < 2 ^ 31

instance (s : Conversation ι) : (a : Act ι) → Decidable (s.Admissible a)
  | .accept _ _ => inferInstanceAs (Decidable (_ = none))
  | .request _ _ => inferInstanceAs (Decidable True)
  | .serverRead _ _ _ => inferInstanceAs (Decidable (_ ∧ _ < _ ∧ _ ≤ _ ∧ (_ ∨ _) ∧ _ < _))
  | .clientRead _ _ => inferInstanceAs (Decidable (_ < _ ∧ _ ≤ _ ∧ _ < _))

end Step

/-- What is to be seen of a conversation that goes well. -/
structure Sound (h : Handler) (s : Conversation ι) : Prop where
  running : s.halted = false
  /-- The server is handed the requests, each once and in order. -/
  asked : ∀ i, (s.connections i).asked.map Prod.snd <+:
    (s.connections i).requested.map Sent.message
  /-- It sends a greeting, and the replies to them, in order. -/
  answered : ∀ i, (s.connections i).answered =
    (s.connections i).accepted.toList.filterMap h.greeting ++
      (s.connections i).asked.filterMap h.reply
  /-- The client is handed just that. -/
  told : ∀ i, (s.connections i).told <+: (s.connections i).answered.map Sent.message
  /-- All requests are in when no byte is on its way, and all that was sent back. -/
  asked_all : ∀ i, (s.connections i).up = [] →
    (s.connections i).asked.map Prod.snd = (s.connections i).requested.map Sent.message
  told_all : ∀ i, (s.connections i).down = [] →
    (s.connections i).told = (s.connections i).answered.map Sent.message

/-! ## One read -/

section Read

variable {np : NetPackage} {msgs : List Sent} {k : Nat} {core : SocketCore}

theorem frames (hnp : np.Documented) (msgs : List Sent) :
    ∀ f ∈ msgs.map (Sent.packet np), Frame netFormat f := by
  intro f hf
  obtain ⟨m, -, rfl⟩ := List.mem_map.mp hf
  exact m.packet_frame hnp

theorem packets_ne_nil (hnp : np.Documented) (msgs : List Sent) :
    ∀ f ∈ msgs.map (Sent.packet np), f ≠ [] :=
  fun f hf => (frames hnp msgs f hf).ne_nil

/-- The read callback hands every message on. -/
theorem Online.onRead_eq (o : Online) (core : SocketCore) (c : Chunk) :
    o.session.onRead np (fun f => nomatch f) core c.bytes =
      ⟨(core.feed np c).core,
        (core.feed np c).calls.map fun m => .handler (.onSocketParse m),
        match (core.feed np c).outcome with
        | .returned _ => .returned 0
        | e => e⟩ := by
  obtain ⟨b, hb⟩ := Option.isSome_iff_exists.mp o.bev
  obtain ⟨h, hh⟩ := Option.isSome_iff_exists.mp o.handled
  rw [SocketSession.onRead_eq hb c.ne_nil]
  simp only [SocketSession.dispatch_of_empty o.unregistered hh]
  unfold Parsed.calls SocketCore.feed
  cases (core.parse np (some c.bytes) (int32 c.bytes.length)).outcome <;> rfl

theorem messagesOf_map (ms : List Message) :
    messagesOf (ms.map fun m => (.handler (.onSocketParse m) : Callout Empty)) = ms := by
  unfold messagesOf
  rw [List.filterMap_map]
  exact List.filterMap_some

/-- Whoever reads a piece of a stream of packets is handed the next messages. -/
theorem onRead_underway (hnp : np.Documented) (o : Online) {input wire : List Byte}
    (h : Underway (msgs.map (Sent.packet np)) k core.queued (input ++ wire)) (hne : input ≠ [])
    (hroom : core.queued.length + input.length < 2 ^ 31) :
    ∃ core' handed, o.session.onRead np (fun f => nomatch f) core input =
        ⟨core', handed.map fun m => .handler (.onSocketParse m), .returned 0⟩ ∧
      Underway (msgs.map (Sent.packet np)) (k + handed.length) core'.queued wire ∧
      (msgs.take (k + handed.length)).map Sent.message =
        (msgs.take k).map Sent.message ++ handed := by
  have hexact : Exact netFormat (core.queued ++ input).length :=
    netFormat_exact (by rw [List.length_append]; exact hroom)
  obtain ⟨done, r, hcuts, hwaits, hunder, htake⟩ := h.read (frames hnp msgs) hexact
  have hfeed := feed_of_waits np (c := ⟨input, hne, by omega⟩) hcuts hwaits
  have hread := @Online.onRead_eq np o core ⟨input, hne, by omega⟩
  refine ⟨⟨⟨r⟩⟩, done.map (messageOf np), ?_, ?_, ?_⟩
  · refine hread.trans ?_
    rw [hfeed]
    unfold Parsed.calls
    rw [passes_calls]
  · rw [List.length_map]
    exact hunder
  · have hmessages := congrArg (List.map (messageOf np)) htake
    rw [List.map_append, ← List.map_take, ← List.map_take, map_messageOf_packets hnp,
      map_messageOf_packets hnp] at hmessages
    rw [List.length_map]
    exact hmessages

end Read

theorem timed_length (t : Nat → Moment) (ms : List Message) : (timed t ms).length = ms.length := by
  unfold timed
  rw [List.length_map, List.length_zipIdx]

theorem timed_messages (t : Nat → Moment) (ms : List Message) :
    (timed t ms).map Prod.snd = ms := by
  unfold timed
  rw [List.map_map]
  exact List.zipIdx_map_fst 0 ms

/-! ## What holds of each connection -/

/-- A connection of which the server holds `held`. -/
structure Well (np : NetPackage) (h : Handler) (c : Connection) (held : List Byte) : Prop where
  up : Underway (c.requested.map (Sent.packet np)) c.asked.length held c.up
  asked : c.asked.map Prod.snd = (c.requested.take c.asked.length).map Sent.message
  down : Underway (c.answered.map (Sent.packet np)) c.told.length c.core.queued c.down
  told : c.told = (c.answered.take c.told.length).map Sent.message
  answered : c.answered = c.accepted.toList.filterMap h.greeting ++ c.asked.filterMap h.reply
  fresh : c.accepted = none → c.asked = []

theorem well_init (np : NetPackage) (h : Handler) : Well np h Connection.init [] :=
  ⟨underway_nil, rfl, underway_nil, rfl, rfl, fun _ => rfl⟩

namespace Well

variable {np : NetPackage} {h : Handler} {c : Connection} {held : List Byte}

theorem told_le (hc : Well np h c held) : c.told.length ≤ c.answered.length := by
  have hle := hc.down.le
  rwa [List.length_map] at hle

/-- What the server says goes behind what is on its way to the client. -/
theorem down_say (hnp : np.Documented) (hc : Well np h c held) (msgs : List Sent) :
    Underway ((c.answered ++ msgs).map (Sent.packet np)) c.told.length c.core.queued
      (c.down ++ (msgs.map (Sent.packet np)).flatten) := by
  rw [List.map_append]
  exact hc.down.write_all (packets_ne_nil hnp msgs)

theorem told_say (hc : Well np h c held) (msgs : List Sent) :
    c.told = ((c.answered ++ msgs).take c.told.length).map Sent.message := by
  rw [List.take_append_of_le_length hc.told_le]
  exact hc.told

theorem accept (hnp : np.Documented) (hc : Well np h c held) (hnew : c.accepted = none)
    (t : Moment) :
    Well np h (({ c with accepted := some t } : Connection).say np (h.greeting t).toList)
      held where
  up := hc.up
  asked := hc.asked
  down := hc.down_say hnp _
  told := hc.told_say _
  answered := by
    have hbefore := hc.answered
    rw [hnew, hc.fresh hnew] at hbefore
    show c.answered ++ (h.greeting t).toList = _
    rw [hbefore]
    show (h.greeting t).toList = [t].filterMap h.greeting ++ c.asked.filterMap h.reply
    rw [hc.fresh hnew, List.filterMap_nil, List.append_nil]
    cases hg : h.greeting t <;> simp [hg]
  fresh hnone := absurd hnone (Option.some_ne_none t)

theorem request (hnp : np.Documented) (hc : Well np h c held) (m : Sent) :
    Well np h { c with requested := c.requested ++ [m], up := c.up ++ m.packet np } held where
  up := by
    show Underway ((c.requested ++ [m]).map (Sent.packet np)) c.asked.length held _
    rw [List.map_append]
    exact hc.up.write (m.packet_frame hnp).ne_nil
  asked := by
    have hle := hc.up.le
    rw [List.length_map] at hle
    show c.asked.map Prod.snd = ((c.requested ++ [m]).take c.asked.length).map Sent.message
    rw [List.take_append_of_le_length hle]
    exact hc.asked
  down := hc.down
  told := hc.told
  answered := hc.answered
  fresh := hc.fresh

/-- The server is handed messages, and answers them. -/
theorem ask (hnp : np.Documented) (hc : Well np h c held) {held' up' : List Byte}
    {asked : List (Moment × Message)} (hacc : c.accepted.isSome)
    (hup : Underway (c.requested.map (Sent.packet np)) (c.asked.length + asked.length) held' up')
    (hasked : (c.requested.take (c.asked.length + asked.length)).map Sent.message =
      (c.requested.take c.asked.length).map Sent.message ++ asked.map Prod.snd) :
    Well np h (({ c with up := up', asked := c.asked ++ asked } : Connection).say np
      (asked.filterMap h.reply)) held' where
  up := by
    show Underway (c.requested.map (Sent.packet np)) (c.asked ++ asked).length held' up'
    rw [List.length_append]
    exact hup
  asked := by
    show (c.asked ++ asked).map Prod.snd = (c.requested.take (c.asked ++ asked).length).map _
    rw [List.length_append, hasked, List.map_append, hc.asked]
  down := hc.down_say hnp _
  told := hc.told_say _
  answered := by
    show c.answered ++ asked.filterMap h.reply = _ ++ (c.asked ++ asked).filterMap h.reply
    rw [hc.answered, List.filterMap_append, List.append_assoc]
    rfl
  fresh hnone := by
    rw [show c.accepted = none from hnone] at hacc
    exact absurd hacc (by decide)

/-- The client is handed messages. -/
theorem tell (hc : Well np h c held) {core' : SocketCore} {down' : List Byte}
    {handed : List Message}
    (hdown : Underway (c.answered.map (Sent.packet np)) (c.told.length + handed.length)
      core'.queued down')
    (htold : (c.answered.take (c.told.length + handed.length)).map Sent.message =
      (c.answered.take c.told.length).map Sent.message ++ handed) :
    Well np h { c with down := down', core := core', told := c.told ++ handed } held where
  up := hc.up
  asked := hc.asked
  down := by
    show Underway (c.answered.map (Sent.packet np)) (c.told ++ handed).length core'.queued down'
    rw [List.length_append]
    exact hdown
  told := by
    show c.told ++ handed = (c.answered.take (c.told ++ handed).length).map Sent.message
    rw [List.length_append, htold, ← hc.told]
  answered := hc.answered
  fresh := hc.fresh

end Well

/-! ## What holds of all of them -/

section Runs

variable [DecidableEq ι] {np : NetPackage} {h : Handler} {server client : ι → Online}
  {s : Conversation ι}

/-- What the server holds of connection `i`. -/
def held (s : Conversation ι) (i : ι) : List Byte := if s.owner = some i then s.core.queued else []

structure Inv (np : NetPackage) (h : Handler) (s : Conversation ι) : Prop where
  running : s.halted = false
  owned : s.owner = none → s.core.queued = []
  connections : ∀ i, Well np h (s.connections i) (s.held i)

theorem inv_init (np : NetPackage) (h : Handler) : Inv np h (init : Conversation ι) :=
  ⟨rfl, fun _ => rfl, fun _ => well_init np h⟩

/-- A step at one connection that leaves the server's core alone. -/
theorem Inv.put (hs : Inv np h s) {i : ι} {c : Connection} (hc : Well np h c (s.held i)) :
    Inv np h (s.put i c) where
  running := hs.running
  owned := hs.owned
  connections := by
    refine (Function.forall_update_iff s.connections fun j c => Well np h c (s.held j)).mpr
      ⟨hc, ?_⟩
    intro j _
    exact hs.connections j

/-- The bytes of a connection that reads alone are all the server holds. -/
theorem held_of_alone {i : ι} (halone : s.core.queued = [] ∨ s.owner = some i) (j : ι) :
    s.held j = if j = i then s.core.queued else [] := by
  unfold held
  rcases halone with hnil | howner
  · rw [hnil, ite_self, ite_self]
  · rw [howner]
    by_cases hji : j = i
    · rw [if_pos (by rw [hji]), if_pos hji]
    · rw [if_neg fun heq => hji (Option.some.inj heq).symm, if_neg hji]

theorem Inv.serverRead (hnp : np.Documented) (hs : Inv np h s) {i : ι} {n : Nat}
    (t : Nat → Moment) (hok : s.Admissible (.serverRead i n t)) :
    Inv np h (s.step np h server client (.serverRead i n t)) := by
  obtain ⟨hacc, hpos, hle, halone, hroom⟩ := hok
  have hc := hs.connections i
  have hheld := held_of_alone halone
  rw [hheld i, if_pos rfl] at hc
  have htake : ((s.connections i).up.take n).length = n := List.length_take_of_le hle
  have hup := hc.up
  rw [← List.take_append_drop n (s.connections i).up] at hup
  obtain ⟨core', handed, hread, hunder, hmessages⟩ :=
    onRead_underway hnp (server i) hup
      (List.ne_nil_of_length_pos (by omega)) (by omega)
  have hlen := timed_length t handed
  unfold step
  rw [if_neg (by rw [hs.running]; decide)]
  simp only [hread, messagesOf_map]
  refine ⟨rfl, fun hnone => absurd hnone (Option.some_ne_none i), fun j => ?_⟩
  by_cases hji : j = i
  · subst hji
    simp only [Conversation.put, held, Function.update_self, if_pos]
    refine hc.ask hnp hacc ?_ ?_
    · rw [hlen]
      exact hunder
    · rw [hlen, timed_messages]
      exact hmessages
  · have hj := hs.connections j
    rw [hheld j, if_neg hji] at hj
    simp only [Conversation.put, held, Function.update_of_ne hji]
    rw [if_neg fun heq => hji (Option.some.inj heq).symm]
    exact hj

theorem Inv.clientRead (hnp : np.Documented) (hs : Inv np h s) {i : ι} {n : Nat}
    (hok : s.Admissible (.clientRead i n)) :
    Inv np h (s.step np h server client (.clientRead i n)) := by
  obtain ⟨hpos, hle, hroom⟩ := hok
  have hc := hs.connections i
  have htake : ((s.connections i).down.take n).length = n := List.length_take_of_le hle
  have hdown := hc.down
  rw [← List.take_append_drop n (s.connections i).down] at hdown
  obtain ⟨core', handed, hread, hunder, hmessages⟩ :=
    onRead_underway hnp (client i) hdown
      (List.ne_nil_of_length_pos (by omega)) (by omega)
  unfold step
  rw [if_neg (by rw [hs.running]; decide)]
  simp only [hread, messagesOf_map]
  have hput := hs.put (hc.tell hunder hmessages)
  exact ⟨rfl, hput.owned, hput.connections⟩

theorem inv_step (hnp : np.Documented) (server client : ι → Online) (s : Conversation ι)
    (a : Act ι) (hs : Inv np h s) (hok : s.Admissible a) :
    Inv np h (s.step np h server client a) := by
  have hrun : ¬s.halted = true := by
    rw [hs.running]
    decide
  cases a with
  | accept i t =>
      unfold step
      rw [if_neg hrun]
      exact hs.put ((hs.connections i).accept hnp hok t)
  | request i m =>
      unfold step
      rw [if_neg hrun]
      exact hs.put ((hs.connections i).request hnp m)
  | serverRead i n t => exact hs.serverRead hnp t hok
  | clientRead i n => exact hs.clientRead hnp hok

theorem Inv.sound (hs : Inv np h s) : s.Sound h where
  running := hs.running
  asked i := by
    rw [(hs.connections i).asked]
    exact (List.take_prefix _ _).map _
  answered i := (hs.connections i).answered
  told i := by
    have htold := (hs.connections i).told
    rw [htold]
    exact (List.take_prefix _ _).map _
  asked_all i hnil := by
    have hup := (hs.connections i).up
    rw [hnil] at hup
    have hall := hup.all.1
    rw [List.length_map] at hall
    rw [(hs.connections i).asked, List.take_of_length_le (by omega)]
  told_all i hnil := by
    have hdown := (hs.connections i).down
    rw [hnil] at hdown
    have hall := hdown.all.1
    rw [List.length_map] at hall
    have htold := (hs.connections i).told
    rwa [List.take_of_length_le (by omega)] at htold

end Runs

/-- A session as the server makes it, or one that has connected. -/
def online : Online := ⟨Multiplexed.accepted, rfl, rfl⟩

end Conversation

/-! ## Every command is answered -/

/-- No message is too much for `SerializeToArray`. -/
structure Serializer.Total (pb : Serializer) : Prop where
  msgConnected : ∀ t, (pb.msgConnected t).isSome
  msgHeartbeat : ∀ t, (pb.msgHeartbeat t).isSome
  msgChatReponse : pb.msgChatReponse.isSome

inductive Server where
  | platform
  | center

def Server.handler (pb : Serializer) : Server → Handler
  | platform => platformHandler pb
  | center => centerHandler pb

/-- The command a command is answered with. -/
def Server.answer : Server → Int32 → Option Int32
  | platform, cmd =>
      if cmd = cmd_heart_beat then some cmd_heart_beat
      else if cmd = cmd_platform_cs_chat_request then some cmd_platform_sc_chat_reponse
      else none
  | center, cmd => if cmd = cmd_heart_beat then some cmd_heart_beat else none

section Commands

variable {pb : Serializer}

theorem greeting_cmd (hpb : pb.Total) (sv : Server) (t : Moment) :
    ((sv.handler pb).greeting t).map Sent.cmd = some cmd_connected := by
  obtain ⟨p, hp⟩ := Option.isSome_iff_exists.mp (hpb.msgConnected t.time)
  cases sv <;>
    simp [Server.handler, platformHandler, centerHandler, Handler.greeting, hp, Moment.sent]

theorem reply_cmd (hpb : pb.Total) (sv : Server) (a : Moment × Message) :
    ((sv.handler pb).reply a).map Sent.cmd = sv.answer a.2.cmd := by
  obtain ⟨p, hp⟩ := Option.isSome_iff_exists.mp (hpb.msgHeartbeat a.1.time)
  obtain ⟨q, hq⟩ := Option.isSome_iff_exists.mp hpb.msgChatReponse
  cases sv with
  | platform =>
      show ((if a.2.cmd = cmd_connected then none else _ : Option (Int32 × Payload)).map
        a.1.sent).map Sent.cmd = if _ then _ else _
      by_cases hconn : a.2.cmd = cmd_connected
      · rw [if_pos hconn, hconn]
        rfl
      by_cases hbeat : a.2.cmd = cmd_heart_beat
      · rw [if_neg hconn, if_pos hbeat, if_pos hbeat, hp]
        rfl
      by_cases hchat : a.2.cmd = cmd_platform_cs_chat_request
      · rw [if_neg hconn, if_neg hbeat, if_neg hbeat, if_pos hchat, if_pos hchat, hq]
        rfl
      · rw [if_neg hconn, if_neg hbeat, if_neg hbeat, if_neg hchat, if_neg hchat]
        rfl
  | center =>
      show ((if a.2.cmd = cmd_heart_beat then _ else none : Option (Int32 × Payload)).map
        a.1.sent).map Sent.cmd = if _ then _ else _
      by_cases hbeat : a.2.cmd = cmd_heart_beat
      · rw [if_pos hbeat, if_pos hbeat, hp]
        rfl
      · rw [if_neg hbeat, if_neg hbeat]
        rfl

/-- What a client is told, from the commands it has sent. -/
theorem told_cmd {ι : Type} (hpb : pb.Total) (sv : Server) {s : Conversation ι}
    (hs : s.Sound (sv.handler pb)) {i : ι} (hacc : (s.connections i).accepted.isSome)
    (hup : (s.connections i).up = []) (hdown : (s.connections i).down = []) :
    (s.connections i).told.map Message.cmd =
      cmd_connected :: (s.connections i).requested.filterMap fun m => sv.answer m.cmd := by
  obtain ⟨t, ht⟩ := Option.isSome_iff_exists.mp hacc
  have hsent : ∀ msgs : List Sent, (msgs.map Sent.message).map Message.cmd = msgs.map Sent.cmd :=
    fun msgs => List.map_map
  have hreplies : (s.connections i).asked.filterMap (fun a => sv.answer a.2.cmd) =
      (s.connections i).requested.filterMap fun m => sv.answer m.cmd := by
    have hall := congrArg (List.filterMap fun m => sv.answer m.cmd) (hs.asked_all i hup)
    rwa [List.filterMap_map, List.filterMap_map] at hall
  calc (s.connections i).told.map Message.cmd
      = (s.connections i).answered.map Sent.cmd := by rw [hs.told_all i hdown, hsent]
    _ = [t].filterMap (fun t => ((sv.handler pb).greeting t).map Sent.cmd) ++
          (s.connections i).asked.filterMap fun a => ((sv.handler pb).reply a).map Sent.cmd := by
        rw [hs.answered i, ht, List.map_append, List.map_filterMap, List.map_filterMap]
        rfl
    _ = cmd_connected :: (s.connections i).asked.filterMap fun a => sv.answer a.2.cmd := by
        simp only [greeting_cmd hpb, reply_cmd hpb]
        rfl
    _ = _ := by rw [hreplies]

end Commands

namespace Conversation

variable {ι : Type}

end Conversation

end NanomsgDemo.Platform

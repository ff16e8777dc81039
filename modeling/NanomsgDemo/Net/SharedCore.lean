import Mathlib.Data.List.SplitLengths
import NanomsgDemo.Lib.Runs
import NanomsgDemo.Lib.Tagged
import NanomsgDemo.Net.Feeding
import NanomsgDemo.Net.SocketSession

/-!
# Several connections on one processor

`libnet/socket_processor.cpp`: a processor holds one core, and every session
attached to it hands what it reads to that core. All sessions of a server are
attached to the server's processor. A `SocketClient` brings a core of its own, but
passes it to `SocketProcessor::create`, where the core of the client created last
replaces the others.

So the packets of all connections are put together in one queue. The ghost fields
record how much has been read, which session each queued byte was read from, and,
for each message that is handed on, the session it goes to and the sessions its
bytes come from. A session's handler gets exactly what its peer has sent, exactly
if no session ever reads while bytes of another one are waiting, no client is
created while any bytes are, and no reply callback keeps a message back.
-/

namespace NanomsgDemo.Net

open Framing Runs Tagged

/-- `SocketProcessor`, less its event base. -/
structure SocketProcessor where
  core : Ptr
  deriving DecidableEq, Repr

namespace SocketProcessor

/-- `SocketProcessor::SocketProcessor`. -/
def init : SocketProcessor := ⟨none⟩

/-- `SocketProcessor::create`. -/
def create (_ : SocketProcessor) (core : Nat) : SocketProcessor := ⟨some core⟩

/-- `SocketProcessor::getSocketCore`. -/
def getSocketCore (p : SocketProcessor) : Ptr := p.core

end SocketProcessor

/-- A session that can receive: it has its bufferevent and its handler. -/
structure Attached (κ : Type) where
  session : SocketSession κ
  bev : session.bev.isSome = true
  handled : session.handler.isSome = true

/-- `sendData` with a callback for the reply. -/
def Attached.sendDataCb {κ : Type} (np : NetPackage) (a : Attached κ) (now : UInt32) (cmd : Int32)
    (object : List Byte) (recvcmd : Int32) (cb : SocketCallback κ)
    (write : Ptr → List Byte → Int32) : Attached κ where
  session := (a.session.sendDataCb np now cmd object recvcmd cb write).1
  bev := by
    unfold SocketSession.sendDataCb
    split
    · exact a.bev
    · exact a.bev
  handled := by
    unfold SocketSession.sendDataCb
    split
    · exact a.handled
    · exact a.handled

/-- The messages among the calls of a session. -/
def messagesOf {κ : Type} (calls : List (Callout κ)) : List Message :=
  calls.filterMap fun
    | .handler (.onSocketParse m) => some m
    | _ => none

/-! ## What the reply callbacks let through -/

namespace SocketSession

variable {κ : Type} {s : SocketSession κ}

/--
A message gets through to the handler: no callback has been registered at all, or one
has been for its command, and is empty or returns `true`.
-/
def handsOn (s : SocketSession κ) (answer : κ → List Byte → Bool) (m : Message) : Bool :=
  s.cmdEventMap.entries.isEmpty ||
    (s.cmdEventMap.lookup m.cmd).any fun cb => cb.all (answer · m.buf)

theorem messagesOf_append (l m : List (Callout κ)) :
    messagesOf (l ++ m) = messagesOf l ++ messagesOf m := List.filterMap_append

/-- `__onParse` on a session with a handler. -/
theorem onParse_eq (hh : s.handler.isSome = true) (answer : κ → List Byte → Bool) (m : Message) :
    (s.handsOn answer m = true → (s.onParse answer m).2 = .returned 0) ∧
      messagesOf (s.onParse answer m).1 = if s.handsOn answer m then [m] else [] := by
  obtain ⟨h, hh⟩ := Option.isSome_iff_exists.mp hh
  unfold onParse handsOn
  by_cases hempty : s.cmdEventMap.entries.isEmpty = true
  · simp [hempty, hh, messagesOf]
  · cases hl : s.cmdEventMap.lookup m.cmd with
    | none => simp [hempty, messagesOf]
    | some cb =>
        cases cb with
        | none => simp [hempty, hh, messagesOf]
        | some f =>
            by_cases ha : answer f m.buf = true
            · simp [hempty, ha, hh, messagesOf]
            · simp [hempty, ha, messagesOf]

variable {answer : κ → List Byte → Bool} {p : Parsed} {its : List Iteration}

/-- Messages that all get through are handed on one by one. -/
theorem dispatch_handsOn (hh : s.handler.isSome = true)
    (hall : ∀ m ∈ its.filterMap Iteration.call, s.handsOn answer m = true) :
    (s.dispatch answer p its).core = p.core ∧ (s.dispatch answer p its).outcome = p.outcome ∧
      messagesOf (s.dispatch answer p its).calls = its.filterMap Iteration.call := by
  induction its with
  | nil => exact ⟨rfl, rfl, rfl⟩
  | cons it its ih =>
      unfold dispatch
      cases hc : it.call with
      | none =>
          rw [List.filterMap_cons_none hc] at hall ⊢
          exact ih hall
      | some m =>
          rw [List.filterMap_cons_some hc] at hall ⊢
          obtain ⟨hcore, hout, hcalls⟩ := ih fun m' hm => hall m' (List.mem_cons_of_mem _ hm)
          have hm := hall m (List.mem_cons_self ..)
          obtain ⟨hreturned, hmessages⟩ := onParse_eq hh answer m
          rw [if_pos hm] at hmessages
          have hpair : s.onParse answer m = ((s.onParse answer m).1, .returned 0) :=
            Prod.ext rfl (hreturned hm)
          dsimp only
          rw [hpair]
          refine ⟨hcore, hout, ?_⟩
          rw [messagesOf_append, hmessages, hcalls]
          rfl

/-- If `parse` comes to its end, the handler has been given the messages that get through. -/
theorem dispatch_returned (hh : s.handler.isSome = true) {code : Int32}
    (hret : (s.dispatch answer p its).outcome = .returned code) :
    (s.dispatch answer p its).core = p.core ∧ p.outcome = .returned code ∧
      messagesOf (s.dispatch answer p its).calls =
        (its.filterMap Iteration.call).filter (s.handsOn answer) := by
  induction its with
  | nil => exact ⟨rfl, hret, rfl⟩
  | cons it its ih =>
      unfold dispatch at hret ⊢
      cases hc : it.call with
      | none =>
          rw [hc] at hret
          rw [List.filterMap_cons_none hc]
          exact ih hret
      | some m =>
          simp only [hc] at hret
          rw [List.filterMap_cons_some hc]
          have hmessages := (onParse_eq hh answer m).2
          dsimp only
          cases hp : s.onParse answer m with
          | mk calls e =>
              rw [hp] at hret hmessages
              cases e with
              | returned code' =>
                  obtain ⟨hcore, hout, hcalls⟩ := ih hret
                  refine ⟨hcore, hout, ?_⟩
                  show messagesOf (calls ++ _) = _
                  rw [messagesOf_append, hcalls, hmessages, List.filter_cons]
                  by_cases hm : s.handsOn answer m = true
                  · rw [if_pos hm, if_pos hm]
                    rfl
                  · rw [if_neg hm, if_neg hm]
                    rfl
              -- an exception, or undefined behaviour, ends the read callback
              | threw => exact absurd hret (by simp)
              | undefined => exact absurd hret (by simp)
              | outOfFuel => exact absurd hret (by simp)

end SocketSession

/-- The sessions `ι` of one processor. -/
structure Multiplexed (ι κ : Type) where
  processor : SocketProcessor
  cores : Nat → SocketCore
  /-- The core made last. -/
  newest : Nat
  sessions : ι → Attached κ
  /-- The calls of `onSocketParse`, in order, each with its session. -/
  received : List (ι × Message)
  /-- How many bytes have been read. -/
  arrived : Nat
  /-- The sessions that the bytes in the queue were read from. -/
  owners : List ι
  /-- For each package taken off the queue, its session and the owners of its bytes. -/
  origins : List (ι × List ι)
  /-- A read callback has not returned. -/
  halted : Bool

namespace Multiplexed

/-- What happens on a processor. -/
inductive Act (ι κ : Type) where
  /-- `__onRead`, with a chunk in the input buffer; `answer` is what callbacks return. -/
  | read (i : ι) (c : Chunk) (answer : κ → List Byte → Bool)
  /-- `sendData` of a session, with a callback for the reply. -/
  | sendData (i : ι) (now : UInt32) (cmd : Int32) (object : List Byte) (recvcmd : Int32)
      (cb : SocketCallback κ) (write : Ptr → List Byte → Int32)
  /-- A `SocketClient` is made, with a core of its own, and created on the processor. -/
  | create

variable {ι κ : Type}

/-- The server, or the first client, has been created on the processor. -/
def init (sessions : ι → Attached κ) : Multiplexed ι κ where
  processor := SocketProcessor.init.create 0
  cores := fun _ => SocketCore.init
  newest := 0
  sessions := sessions
  received := []
  arrived := 0
  owners := []
  origins := []
  halted := false

def step [DecidableEq ι] (np : NetPackage) (s : Multiplexed ι κ) (a : Act ι κ) :
    Multiplexed ι κ :=
  if s.halted then s
  else
    match a with
    | .create =>
        { s with
          processor := s.processor.create (s.newest + 1)
          newest := s.newest + 1
          owners := [] }
    | .sendData i now cmd object recvcmd cb write =>
        { s with
          sessions := Function.update s.sessions i
            ((s.sessions i).sendDataCb np now cmd object recvcmd cb write) }
    | .read i c answer =>
        match s.processor.getSocketCore with
        | none => { s with halted := true }
        | some k =>
            let r := (s.sessions i).session.onRead np answer (s.cores k) c.bytes
            -- the bytes that each pass of `parse` takes off the queue, from here on for the record
            let taken := ((s.cores k).feed np c).trace.map fun it => it.package.length
            let owners := s.owners ++ List.replicate c.bytes.length i
            { s with
              cores := Function.update s.cores k r.core
              received := s.received ++ (messagesOf r.calls).map (i, ·)
              arrived := s.arrived + c.bytes.length
              owners := owners.drop taken.sum
              origins := s.origins ++ (taken.splitLengths owners).map (i, ·)
              halted := r.outcome != .returned 0 }

/-- The reads among what happens. -/
def readsOf (acts : List (Act ι κ)) : List (ι × Chunk) :=
  acts.filterMap fun
    | .read i c _ => some (i, c)
    | _ => none

/-- What waits in the queue of the processor's core. -/
def queued (s : Multiplexed ι κ) : List Byte :=
  match s.processor.getSocketCore with
  | none => []
  | some k => (s.cores k).queued

/--
When a session reads, all bytes that are waiting were read from itself, there is room,
and its callbacks let through every packet that is complete now. When a client is
created, nothing is waiting.
-/
def Alone (np : NetPackage) (s : Multiplexed ι κ) : Act ι κ → Prop
  | .read i c answer =>
      (∀ o ∈ s.owners, o = i) ∧ s.queued.length + c.bytes.length < 2 ^ 31 ∧
        ∀ f, Completed netFormat (s.queued ++ c.bytes) f →
          (s.sessions i).session.handsOn answer (messageOf np f) = true
  | .sendData .. => True
  | .create => s.queued = []

/-- The bytes of every message come from the session it goes to. -/
def Pure (s : Multiplexed ι κ) : Prop := ∀ e ∈ s.origins, ∀ o ∈ e.2, o = e.1

/-- Every session has received exactly what its peer has sent, and no byte of another one. -/
structure Isolated [DecidableEq ι] (np : NetPackage) (packets : ι → List (List Byte))
    (s : Multiplexed ι κ) : Prop where
  running : s.halted = false
  exact : ∀ i, part i s.received = (packets i).map (messageOf np)
  pure : s.Pure

/-! ## One read -/

section Read

variable {np : NetPackage} {s : Multiplexed ι κ} {i : ι} {c : Chunk} {k : Nat}
  {answer : κ → List Byte → Bool}

/-- The read callback feeds the core. -/
theorem onRead_feed (a : Attached κ) (core : SocketCore) :
    a.session.onRead np answer core c.bytes =
      let r := a.session.dispatch answer (core.feed np c) (core.feed np c).trace
      { r with
        outcome := match r.outcome with
          | .returned _ => .returned 0
          | e => e } := by
  obtain ⟨b, hb⟩ := Option.isSome_iff_exists.mp a.bev
  rw [SocketSession.onRead_eq hb c.ne_nil]
  unfold SocketCore.feed
  dsimp only
  generalize a.session.dispatch answer _ _ = r
  obtain ⟨core, calls, outcome⟩ := r
  cases outcome <;> rfl

/-- Everything that gets through is handed on. -/
theorem onRead_handsOn (a : Attached κ) (core : SocketCore)
    (hall : ∀ m ∈ (core.feed np c).calls, a.session.handsOn answer m = true) {code : Int32}
    (hcode : (core.feed np c).outcome = .returned code) :
    (a.session.onRead np answer core c.bytes).core = (core.feed np c).core ∧
      (a.session.onRead np answer core c.bytes).outcome = .returned 0 ∧
      messagesOf (a.session.onRead np answer core c.bytes).calls = (core.feed np c).calls := by
  obtain ⟨hcore, hout, hcalls⟩ := SocketSession.dispatch_handsOn a.handled
    (p := core.feed np c) hall
  rw [onRead_feed]
  dsimp only
  rw [hcore, hout, hcode]
  exact ⟨rfl, rfl, hcalls⟩

/-- If it returns, so has `parse`. -/
theorem onRead_returned (a : Attached κ) (core : SocketCore)
    (hret : (a.session.onRead np answer core c.bytes).outcome = .returned 0) :
    (a.session.onRead np answer core c.bytes).core = (core.feed np c).core ∧
      (∃ code, (core.feed np c).outcome = .returned code) ∧
      messagesOf (a.session.onRead np answer core c.bytes).calls =
        (core.feed np c).calls.filter (a.session.handsOn answer) := by
  rw [onRead_feed] at hret ⊢
  dsimp only at hret ⊢
  obtain ⟨code, hcode⟩ : ∃ code,
      (a.session.dispatch answer (core.feed np c) (core.feed np c).trace).outcome =
        .returned code := by
    cases hout : (a.session.dispatch answer (core.feed np c) (core.feed np c).trace).outcome with
    | returned code => exact ⟨code, rfl⟩
    | threw => rw [hout] at hret; exact absurd hret (by simp)
    | undefined => rw [hout] at hret; exact absurd hret (by simp)
    | outOfFuel => rw [hout] at hret; exact absurd hret (by simp)
  obtain ⟨hcore, hfeed, hcalls⟩ := SocketSession.dispatch_returned a.handled hcode
  exact ⟨hcore, ⟨code, hfeed⟩, hcalls⟩

theorem passes_package_length (l : List Byte) (fs : List (List Byte)) :
    ((passes np l fs).map fun it => it.package.length) = fs.map List.length := by
  induction fs generalizing l with
  | nil => rfl
  | cons f fs ih => simp [passes, ih]

/-- The state in which `i` has been given `ms` of the packets `fs`, and `r` is left waiting. -/
def afterRead (s : Multiplexed ι κ) (k : Nat) (i : ι) (c : Chunk) (fs : List (List Byte))
    (r : List Byte) (ms : List Message) : Multiplexed ι κ :=
  { s with
    cores := Function.update s.cores k ⟨⟨r⟩⟩
    received := s.received ++ ms.map (i, ·)
    arrived := s.arrived + c.bytes.length
    owners := (s.owners ++ List.replicate c.bytes.length i).drop (fs.map List.length).sum
    origins := s.origins ++
      ((fs.map List.length).splitLengths (s.owners ++ List.replicate c.bytes.length i)).map (i, ·)
    halted := false }

variable [DecidableEq ι]

theorem step_halted {a : Act ι κ} (hs : s.halted = true) : s.step np a = s := by
  unfold step; rw [if_pos hs]

theorem running_of_step {a : Act ι κ} (h : (s.step np a).halted = false) : s.halted = false := by
  by_contra hs
  rw [step_halted (by simpa using hs)] at h
  exact hs h

/-- A read that ends in an incomplete packet, with callbacks that let all packets through. -/
theorem step_of_waits {fs : List (List Byte)} {r : List Byte} (hs : s.halted = false)
    (hk : s.processor.core = some k) (hc : Cuts netFormat ((s.cores k).queued ++ c.bytes) fs r)
    (hw : Waits netFormat r)
    (hall : ∀ f ∈ fs, (s.sessions i).session.handsOn answer (messageOf np f) = true) :
    s.step np (.read i c answer) = s.afterRead k i c fs r (fs.map (messageOf np)) := by
  have hfeed := feed_of_waits np hc hw
  have hcalls : ((s.cores k).feed np c).calls = fs.map (messageOf np) := by
    rw [hfeed]
    exact passes_calls _ fs
  have hthrough : ∀ m ∈ ((s.cores k).feed np c).calls,
      (s.sessions i).session.handsOn answer m = true := by
    rw [hcalls]
    simpa using hall
  have hcode : ((s.cores k).feed np c).outcome = .returned 0 := by rw [hfeed]
  obtain ⟨hcore, hout, hmessages⟩ := onRead_handsOn (s.sessions i) (s.cores k) hthrough hcode
  unfold step
  rw [if_neg (by simp [hs])]
  simp only [SocketProcessor.getSocketCore, hk, hcore, hout, hmessages, hcalls]
  simp [hfeed, passes_package_length, afterRead]

/-- A read callback that returns leaves an incomplete packet, and hands on what gets through. -/
theorem step_running {fs : List (List Byte)} {r : List Byte}
    (hk : s.processor.core = some k) (hc : Cuts netFormat ((s.cores k).queued ++ c.bytes) fs r)
    (hr : ¬ Ready netFormat r) (hrun : (s.step np (.read i c answer)).halted = false) :
    Waits netFormat r ∧ s.step np (.read i c answer) = s.afterRead k i c fs r
      ((fs.map (messageOf np)).filter ((s.sessions i).session.handsOn answer)) := by
  have hs := running_of_step hrun
  unfold step at hrun ⊢
  rw [if_neg (by simp [hs])] at hrun ⊢
  simp only [SocketProcessor.getSocketCore, hk] at hrun ⊢
  have hret : ((s.sessions i).session.onRead np answer (s.cores k) c.bytes).outcome =
      .returned 0 := by
    simpa using hrun
  obtain ⟨hcore, ⟨code, hcode⟩, hmessages⟩ := onRead_returned (s.sessions i) (s.cores k) hret
  have hw : Waits netFormat r := by
    by_contra hw
    rw [feed_eq np hc hr] at hcode
    exact settled_outcome_ne hw code hcode
  refine ⟨hw, ?_⟩
  have hfeed := feed_of_waits np hc hw
  have hcalls : ((s.cores k).feed np c).calls = fs.map (messageOf np) := by
    rw [hfeed]
    exact passes_calls _ fs
  rw [hcore, hret, hmessages, hcalls]
  simp [hfeed, passes_package_length, afterRead]

end Read

/-! ## What holds between two steps -/

/-- What a message weighs on the wire. -/
def weight (m : Message) : Nat := m.buf.length + 14

/-- What has been handed on so far. -/
def handed (s : Multiplexed ι κ) : Nat := (s.received.map fun e => weight e.2).sum

theorem weight_messageOf {np : NetPackage} (hnp : np.Documented) {f : List Byte}
    (hf : Frame netFormat f) : weight (messageOf np f) = f.length := by
  have := (frame_iff.mp hf).1
  rw [weight, messageOf_buf_length hnp]
  omega

theorem weight_messagesOf {np : NetPackage} (hnp : np.Documented) {fs : List (List Byte)}
    (hf : ∀ f ∈ fs, Frame netFormat f) :
    ((fs.map (messageOf np)).map weight).sum = fs.flatten.length := by
  rw [List.map_map, List.length_flatten]
  exact congrArg List.sum (List.map_congr_left fun f hm => weight_messageOf hnp (hf f hm))

theorem weight_filter_le (p : Message → Bool) (ms : List Message) :
    ((ms.filter p).map weight).sum ≤ (ms.map weight).sum := by
  induction ms with
  | nil => exact Nat.le_refl 0
  | cons m ms ih =>
      rw [List.filter_cons]
      split
      · simpa using ih
      · rw [List.map_cons, List.sum_cons]
        omega

/-- Only messages that are kept back are missing. -/
theorem forall_of_weight_le {p : Message → Bool} {ms : List Message}
    (h : (ms.map weight).sum ≤ ((ms.filter p).map weight).sum) : ∀ m ∈ ms, p m = true := by
  induction ms with
  | nil => exact fun _ hm => absurd hm List.not_mem_nil
  | cons m ms ih =>
      have hle := weight_filter_le p ms
      have hpos : 0 < weight m := Nat.succ_pos _
      rw [List.filter_cons, List.map_cons, List.sum_cons] at h
      by_cases hm : p m = true
      · rw [if_pos hm, List.map_cons, List.sum_cons] at h
        intro m' hm'
        rcases List.mem_cons.mp hm' with rfl | hm'
        · exact hm
        · exact ih (by omega) m' hm'
      · rw [if_neg hm] at h
        omega

/--
The processor uses the core made last, which waits for the rest of a packet, and every
byte in its queue has an owner. No more can have been handed on than has been read.
-/
structure Inv (s : Multiplexed ι κ) : Prop where
  core : s.processor.core = some s.newest
  unmade : ∀ k, s.newest < k → (s.cores k).queued = []
  waits : s.halted = false → Waits netFormat s.queued
  owned : s.halted = false → s.owners.length = s.queued.length
  balance : s.halted = false → s.handed + s.queued.length ≤ s.arrived

theorem inv_init (sessions : ι → Attached κ) : Inv (init sessions) where
  core := rfl
  unmade _ _ := rfl
  waits _ := by
    show Waits netFormat []
    decide
  owned _ := rfl
  balance _ := Nat.le_refl 0

theorem Inv.queued {s : Multiplexed ι κ} (h : Inv s) : s.queued = (s.cores s.newest).queued := by
  simp [Multiplexed.queued, SocketProcessor.getSocketCore, h.core]

section Reads

variable {np : NetPackage} {s : Multiplexed ι κ} {i : ι} {c : Chunk} {fs : List (List Byte)}
  {r : List Byte} {ms : List Message}

theorem Inv.afterRead_queued (h : Inv s) :
    (s.afterRead s.newest i c fs r ms).queued = r := by
  simp [Multiplexed.queued, SocketProcessor.getSocketCore, afterRead, h.core, SocketCore.queued]

theorem afterRead_handed (k : Nat) :
    (s.afterRead k i c fs r ms).handed = s.handed + (ms.map weight).sum := by
  simp [handed, afterRead, Function.comp_def]

theorem cuts_length {q : List Byte} (hc : Cuts netFormat (q ++ c.bytes) fs r) :
    fs.flatten.length + r.length = q.length + c.bytes.length := by
  have hlen := congrArg List.length hc.flatten
  rwa [List.length_append, List.length_append] at hlen

theorem Inv.afterRead (hnp : np.Documented) (h : Inv s) (hs : s.halted = false)
    (hc : Cuts netFormat (s.queued ++ c.bytes) fs r) (hw : Waits netFormat r)
    (p : Message → Bool) :
    Inv (s.afterRead s.newest i c fs r ((fs.map (messageOf np)).filter p)) where
  core := h.core
  unmade k hk := by
    show (Function.update s.cores s.newest ⟨⟨r⟩⟩ k).queued = []
    have hk : s.newest < k := hk
    rw [Function.update_of_ne (Nat.ne_of_gt hk)]
    exact h.unmade k hk
  waits _ := by
    rw [h.afterRead_queued]
    exact hw
  owned _ := by
    rw [h.afterRead_queued]
    show ((s.owners ++ List.replicate c.bytes.length i).drop (fs.map List.length).sum).length = _
    have hlen := cuts_length hc
    have howned := h.owned hs
    rw [List.length_flatten] at hlen
    rw [List.length_drop, List.length_append, List.length_replicate]
    omega
  balance _ := by
    rw [h.afterRead_queued, afterRead_handed]
    show _ ≤ s.arrived + c.bytes.length
    have hbalance := h.balance hs
    have hlen := cuts_length hc
    have hle := weight_filter_le p (fs.map (messageOf np))
    rw [weight_messagesOf hnp hc.frame] at hle
    omega

variable [DecidableEq ι]

theorem step_create (hs : s.halted = false) :
    s.step np .create = { s with
      processor := s.processor.create (s.newest + 1)
      newest := s.newest + 1
      owners := [] } := by
  unfold step
  rw [if_neg (by simp [hs])]

theorem Inv.create_queued (np : NetPackage) (h : Inv s) (hs : s.halted = false) :
    (s.step np .create).queued = [] := by
  rw [step_create hs]
  exact h.unmade (s.newest + 1) (Nat.lt_succ_self _)

theorem inv_step (hnp : np.Documented) (s : Multiplexed ι κ) (a : Act ι κ) (h : Inv s) :
    Inv (s.step np a) := by
  by_cases hs : s.halted = true
  · rwa [step_halted hs]
  have hs : s.halted = false := by simpa using hs
  cases a with
  | read i c answer =>
      obtain ⟨fs, r, hc, hr⟩ := exists_cuts netFormat (s.queued ++ c.bytes)
      by_cases hrun : (s.step np (.read i c answer)).halted = false
      · obtain ⟨hw, hstep⟩ := step_running h.core (by rw [← h.queued]; exact hc) hr hrun
        rw [hstep]
        exact h.afterRead hnp hs hc hw _
      · have hfalse : ∀ {P : Prop}, (s.step np (.read i c answer)).halted = false → P :=
          fun hf => absurd hf hrun
        have hkept : (s.step np (.read i c answer)).processor = s.processor ∧
            (s.step np (.read i c answer)).newest = s.newest ∧
            ∀ k, s.newest < k → ((s.step np (.read i c answer)).cores k) = s.cores k := by
          unfold step
          rw [if_neg (by simp [hs])]
          simp only [SocketProcessor.getSocketCore, h.core]
          refine ⟨trivial, trivial, fun k hk => ?_⟩
          exact Function.update_of_ne (Nat.ne_of_gt hk) _ _
        obtain ⟨hprocessor, hnewest, hcores⟩ := hkept
        refine ⟨?_, fun k hk => ?_, hfalse, hfalse, hfalse⟩
        · rw [hprocessor, hnewest]
          exact h.core
        · rw [hnewest] at hk
          rw [hcores k hk]
          exact h.unmade k hk
  | sendData i now cmd object recvcmd cb write =>
      unfold step
      rw [if_neg (by simp [hs])]
      exact ⟨h.core, h.unmade, h.waits, h.owned, h.balance⟩
  | create =>
      have hnil := h.create_queued np hs
      refine ⟨?_, fun k hk => ?_, fun _ => ?_, fun _ => ?_, fun _ => ?_⟩
      · rw [step_create hs]
        rfl
      · rw [step_create hs] at hk ⊢
        exact h.unmade k (Nat.lt_of_succ_lt hk)
      · rw [hnil]
        decide
      · rw [hnil, step_create hs]
        rfl
      · rw [hnil, step_create hs]
        exact Nat.le_trans (Nat.le_add_right _ _) (h.balance hs)

/-- All that has been read, in a run that is still going on. -/
theorem arrived_of_running (hnp : np.Documented) {acts : List (Act ι κ)} :
    ∀ {s : Multiplexed ι κ}, Inv s → (acts.foldl (step np) s).halted = false →
      (acts.foldl (step np) s).arrived =
        s.arrived + ((readsOf acts).map fun a => a.2.bytes.length).sum := by
  induction acts with
  | nil => intro s _ _; rfl
  | cons a acts ih =>
      intro s h hend
      have hnext : (s.step np a).halted = false :=
        of_foldl (P := fun t : Multiplexed ι κ => t.halted = false)
          (fun _ _ => running_of_step) hend
      have hs := running_of_step hnext
      rw [List.foldl_cons, ih (inv_step hnp s a h) hend]
      cases a with
      | read i c answer =>
          obtain ⟨fs, r, hc, hr⟩ := exists_cuts netFormat ((s.cores s.newest).queued ++ c.bytes)
          rw [(step_running h.core hc hr hnext).2]
          show s.arrived + c.bytes.length + _ = s.arrived + (c.bytes.length + _)
          rw [Nat.add_assoc]
          rfl
      | sendData i now cmd object recvcmd cb write =>
          unfold step
          rw [if_neg (by simp [hs])]
          rfl
      | create =>
          rw [step_create hs]
          rfl

/-! ## Backwards: what a good end says about the steps -/

/-- Everything has been pure so far, nothing is missing, and nothing waits that will spoil it. -/
structure Clean (s : Multiplexed ι κ) : Prop where
  running : s.halted = false
  pure : s.Pure
  /-- The bytes that wait will leave in one package. -/
  uniform : ∀ o ∈ s.owners, ∀ o' ∈ s.owners, o = o'
  room : s.queued.length < 2 ^ 31
  balance : s.handed + s.queued.length = s.arrived

/-- Once 2 GiB are queued they never leave: the counter only sees what exceeds `2 ^ 32`. -/
theorem cuts_room {l r : List Byte} {fs : List (List Byte)} (hc : Cuts netFormat l fs r)
    (hl : 2 ^ 31 ≤ l.length) : 2 ^ 31 ≤ r.length := by
  induction hc with
  | nil => exact hl
  | @cons l fs r hready _ ih =>
      apply ih
      obtain ⟨h1, h2⟩ := ready_iff.mp hready
      have hseen := int32_toInt l.length
      have hdec : netFormat.declared l = (NetHead.sizeAt l).toInt := rfl
      rw [List.length_drop, hdec]
      omega

omit [DecidableEq ι] in
/-- A session whose bytes come behind those of another one spoils a package. -/
theorem owners_of_afterRead (h : Inv s) (hs : s.halted = false)
    (hc : Cuts netFormat (s.queued ++ c.bytes) fs r)
    (hroom : s.queued.length + c.bytes.length < 2 ^ 31)
    (hcl : Clean (s.afterRead s.newest i c fs r ms)) : ∀ o ∈ s.owners, o = i := by
  have hown := h.owned hs
  intro o ho
  cases hc with
  | nil =>
      -- the bytes of the session are queued behind the others
      have hpos := List.length_pos_iff.mpr c.ne_nil
      refine hcl.uniform o ?_ i ?_
      · exact List.mem_append_left _ ho
      · exact List.mem_append_right _ (List.mem_replicate.mpr ⟨by omega, rfl⟩)
  | @cons _ fs _ hready hrest =>
      -- the first package reaches beyond what was waiting
      have hlt := (h.waits hs).lt_declared (netFormat_exact (by omega) _ (Nat.le_refl _)) hready
      have hmem := hcl.pure (i, (s.owners ++ List.replicate c.bytes.length i).take
        ((s.queued ++ c.bytes).take
          (netFormat.declared (s.queued ++ c.bytes)).toNat).length)
        (by simp [Multiplexed.afterRead])
      refine hmem o ?_
      rw [List.length_take, Nat.min_eq_left hready.length_le, List.take_append,
        List.take_of_length_le (by omega)]
      exact List.mem_append_left _ ho

/-- **One read leads to a clean state only if the session reads alone, from a clean state.** -/
theorem alone_of_clean_read (hnp : np.Documented) (h : Inv s) {answer : κ → List Byte → Bool}
    (hcl : Clean (s.step np (.read i c answer))) :
    s.Alone np (.read i c answer) ∧ Clean s := by
  have hs := running_of_step hcl.running
  obtain ⟨fs, r, hc, hr⟩ := exists_cuts netFormat (s.queued ++ c.bytes)
  have hrun := step_running h.core (by rw [← h.queued]; exact hc) hr hcl.running
  rw [hrun.2] at hcl
  have hroom : s.queued.length + c.bytes.length < 2 ^ 31 := by
    by_contra hfull
    have hr31 := cuts_room hc (by rw [List.length_append]; omega)
    have := hcl.room
    rw [h.afterRead_queued] at this
    omega
  have halone := owners_of_afterRead h hs hc hroom hcl
  -- nothing that was complete is missing, nor has anything been missing before
  have hbalance := hcl.balance
  rw [h.afterRead_queued, afterRead_handed] at hbalance
  change _ = s.arrived + c.bytes.length at hbalance
  have hle := h.balance hs
  have hlen := cuts_length hc
  have hweight := weight_messagesOf hnp hc.frame
  have hfilter := weight_filter_le ((s.sessions i).session.handsOn answer)
    (fs.map (messageOf np))
  have hall : ∀ m ∈ fs.map (messageOf np), (s.sessions i).session.handsOn answer m = true :=
    forall_of_weight_le (by omega)
  refine ⟨⟨halone, hroom, fun f hf => ?_⟩, hs, ?_, ?_, by omega, by omega⟩
  · exact hall _ (List.mem_map_of_mem ((hc.completed_iff hr f).mp hf))
  · exact fun e he => hcl.pure e (List.mem_append_left _ he)
  · exact fun o ho o' ho' => (halone o ho).trans (halone o' ho').symm

theorem alone_of_clean (hnp : np.Documented) (s : Multiplexed ι κ) (a : Act ι κ) (h : Inv s)
    (hcl : Clean (s.step np a)) : s.Alone np a ∧ Clean s := by
  have hs := running_of_step hcl.running
  cases a with
  | read i c answer => exact alone_of_clean_read hnp h hcl
  | sendData i now cmd object recvcmd cb write =>
      unfold step at hcl
      rw [if_neg (by simp [hs])] at hcl
      exact ⟨trivial, hs, hcl.pure, hcl.uniform, hcl.room, hcl.balance⟩
  | create =>
      -- what was waiting will never be handed on
      have hbalance := hcl.balance
      rw [h.create_queued np hs, step_create hs] at hbalance
      change s.handed + 0 = s.arrived at hbalance
      have hle := h.balance hs
      have hnil : s.queued = [] := List.length_eq_zero_iff.mp (by omega)
      have howners : s.owners = [] :=
        List.length_eq_zero_iff.mp (by rw [h.owned hs, hnil]; rfl)
      rw [step_create hs] at hcl
      refine ⟨hnil, hs, hcl.pure, ?_, ?_, ?_⟩
      · rw [howners]
        exact fun _ ho => absurd ho List.not_mem_nil
      · rw [hnil]
        exact Nat.two_pow_pos 31
      · rw [hnil]
        exact hbalance

/-- If everybody has received everything, then nothing waits, and nothing is missing. -/
theorem clean_of_isolated (hnp : np.Documented) {packets : ι → List (List Byte)}
    (hp : ∀ i, ∀ f ∈ packets i, Frame netFormat f) (sessions : ι → Attached κ)
    (acts : List (Act ι κ))
    (hreads : ∀ i, bytesOf (part i (readsOf acts)) = (packets i).flatten)
    (hiso : (acts.foldl (step np) (init sessions)).Isolated np packets) :
    Clean (acts.foldl (step np) (init sessions)) := by
  have hinv : Inv (acts.foldl (step np) (init sessions)) :=
    invariant (inv_init sessions) (inv_step hnp) acts
  have harrived := arrived_of_running hnp (inv_init sessions) hiso.running
  have hweight : ((readsOf acts).map fun a => a.2.bytes.length).sum =
      (acts.foldl (step np) (init sessions)).handed :=
    sum_eq_of_part (f := fun c : Chunk => c.bytes.length) (g := weight) fun i => by
      rw [hiso.exact i, weight_messagesOf hnp (hp i), ← hreads i]
      simp [bytesOf, List.length_flatten, Function.comp_def]
  have hbalance := hinv.balance hiso.running
  rw [harrived, hweight] at hbalance
  change _ ≤ 0 + _ at hbalance
  change _ = 0 + _ at harrived
  have hnil : (acts.foldl (step np) (init sessions)).queued = [] :=
    List.length_eq_zero_iff.mp (by omega)
  have howners : (acts.foldl (step np) (init sessions)).owners = [] :=
    List.length_eq_zero_iff.mp (by rw [hinv.owned hiso.running, hnil]; rfl)
  refine ⟨hiso.running, hiso.pure, ?_, ?_, ?_⟩
  · rw [howners]
    exact fun _ ho => absurd ho List.not_mem_nil
  · rw [hnil]
    exact Nat.two_pow_pos 31
  · rw [harrived, hweight, hnil]
    exact (Nat.zero_add _).symm

/-! ## Forwards: reading alone -/

/-- What waits of the packets of session `i`, if nothing waits of any other session. -/
def held (s : Multiplexed ι κ) (i : ι) : List Byte :=
  if ∀ o ∈ s.owners, o = i then s.queued else []

/-- Where all owners are `i`, only `i` has something waiting. -/
theorem held_of_alone (hlen : s.owners.length = s.queued.length) (h : ∀ o ∈ s.owners, o = i)
    (j : ι) : s.held j = if j = i then s.queued else [] := by
  unfold held
  by_cases hji : j = i
  · subst hji
    rw [if_pos h, if_pos rfl]
  · rw [if_neg hji]
    split
    · rename_i hj
      -- then nothing waits at all
      cases hos : s.owners with
      | nil =>
          rw [hos] at hlen
          exact List.length_eq_zero_iff.mp hlen.symm
      | cons o os =>
          have ho : o ∈ s.owners := by rw [hos]; simp
          exact absurd ((hj o ho).symm.trans (h o ho)) hji
    · rfl

/-- Where nothing waits, nobody has anything waiting. -/
theorem held_of_nil (h : s.queued = []) (j : ι) : s.held j = [] := by
  unfold held
  rw [h, ite_self]

omit [DecidableEq ι] in
theorem afterRead_pure (hp : s.Pure) (h : ∀ o ∈ s.owners ++ List.replicate c.bytes.length i, o = i)
    (k : Nat) : (s.afterRead k i c fs r ms).Pure := by
  have hparts : ∀ {lens : List Nat} {os part : List ι}, part ∈ lens.splitLengths os →
      ∀ o ∈ part, o ∈ os := by
    intro lens
    induction lens with
    | nil => exact fun hpart => absurd hpart List.not_mem_nil
    | cons n lens ih =>
        intro os part hpart o ho
        rw [List.splitLengths_cons] at hpart
        rcases List.mem_cons.mp hpart with rfl | hpart
        · exact List.mem_of_mem_take ho
        · exact List.mem_of_mem_drop (ih hpart o ho)
  intro e he o ho
  rcases List.mem_append.mp he with he | he
  · exact hp e he o ho
  · obtain ⟨os, hos, rfl⟩ := List.mem_map.mp he
    exact h o (hparts hos o ho)

theorem part_afterRead (k : Nat) (j : ι) :
    part j (s.afterRead k i c fs r ms).received =
      part j s.received ++ if j = i then ms else [] := by
  show part j (s.received ++ ms.map (i, ·)) = _
  rw [part_append]
  by_cases hji : j = i
  · subst hji
    rw [part_map_self, if_pos rfl]
  · rw [part_map_of_ne (Ne.symm hji), if_neg hji]

/-- The packets that every session has yet to receive, from what waits and what is to be read. -/
structure Ahead (s : Multiplexed ι κ) (rest : ι → List (List Byte)) (acts : List (Act ι κ)) :
    Prop where
  inv : Inv s
  running : s.halted = false
  pure : s.Pure
  frames : ∀ i, ∀ f ∈ rest i, Frame netFormat f
  held : ∀ i, Held (s.held i) (rest i)
  flat : ∀ i, (rest i).flatten = s.held i ++ bytesOf (part i (readsOf acts))

variable {rest : ι → List (List Byte)} {acts : List (Act ι κ)}

/-- A session that reads alone receives the first of its packets, and the others none. -/
theorem Ahead.read (hnp : np.Documented) {answer : κ → List Byte → Bool}
    (h : Ahead s rest (.read i c answer :: acts)) (hread : s.Alone np (.read i c answer)) :
    ∃ rest', Ahead (s.step np (.read i c answer)) rest' acts ∧
      ∀ j, part j (s.step np (.read i c answer)).received ++ (rest' j).map (messageOf np) =
        part j s.received ++ (rest j).map (messageOf np) := by
  obtain ⟨halone, hroom, hlets⟩ := hread
  have hmine := held_of_alone (h.inv.owned h.running) halone
  have hreads : readsOf (.read i c answer :: acts) = (i, c) :: readsOf acts := rfl
  have hflati : (rest i).flatten =
      (s.queued ++ c.bytes) ++ bytesOf (part i (readsOf acts)) := by
    rw [h.flat i, hmine i, if_pos rfl, hreads, part_cons_self]
    simp [bytesOf]
  obtain ⟨done, rest', r, h1, h2, h3⟩ := exists_cuts_held (h.frames i) hflati
    (netFormat_exact (by rw [List.length_append]; exact hroom))
  have hf' : ∀ f ∈ rest', Frame netFormat f := by
    intro f hm
    exact h.frames i f (by rw [h1]; exact List.mem_append_right _ hm)
  have hw := h3.waits hf'
  have hstep : s.step np (.read i c answer) =
      s.afterRead s.newest i c done r (done.map (messageOf np)) :=
    step_of_waits h.running h.inv.core (by rw [← h.inv.queued]; exact h2) hw
      fun f hf => hlets f ⟨done, r, h2, hf⟩
  have hinv := inv_step hnp s (.read i c answer) h.inv
  have hqueued : (s.afterRead s.newest i c done r (done.map (messageOf np))).queued = r :=
    h.inv.afterRead_queued
  rw [hstep] at hinv ⊢
  -- all that waits now is what waits of `i`
  have howners : ∀ o ∈ s.owners ++ List.replicate c.bytes.length i, o = i := by
    intro o ho
    rcases List.mem_append.mp ho with ho | ho
    · exact halone o ho
    · exact (List.mem_replicate.mp ho).2
  have hmine' := held_of_alone (hinv.owned rfl) (i := i)
    (fun o ho => howners o (List.mem_of_mem_drop ho))
  rw [hqueued] at hmine'
  refine ⟨Function.update rest i rest', ⟨hinv, rfl, afterRead_pure h.pure howners _, ?_, ?_, ?_⟩,
    ?_⟩
  · refine (Function.forall_update_iff rest fun _ l => ∀ f ∈ l, Frame netFormat f).mpr ⟨hf', ?_⟩
    intro j _
    exact h.frames j
  · intro j
    rw [hmine' j]
    by_cases hji : j = i
    · subst hji
      rwa [if_pos rfl, Function.update_self]
    · have hj := h.held j
      rw [hmine j, if_neg hji] at hj
      rwa [if_neg hji, Function.update_of_ne hji]
  · intro j
    rw [hmine' j]
    by_cases hji : j = i
    · subst hji
      rw [if_pos rfl, Function.update_self]
      rw [h1, List.flatten_append, ← h2.flatten, List.append_assoc] at hflati
      exact List.append_cancel_left hflati
    · have hj := h.flat j
      rw [hmine j, if_neg hji, hreads, part_cons_of_ne (Ne.symm hji)] at hj
      rwa [if_neg hji, Function.update_of_ne hji]
  · intro j
    rw [part_afterRead]
    by_cases hji : j = i
    · subst hji
      rw [if_pos rfl, Function.update_self, h1, List.map_append, List.append_assoc]
    · rw [if_neg hji, Function.update_of_ne hji, List.append_nil]

theorem Ahead.step (hnp : np.Documented) {a : Act ι κ} (h : Ahead s rest (a :: acts))
    (halone : s.Alone np a) :
    ∃ rest', Ahead (s.step np a) rest' acts ∧
      ∀ j, part j (s.step np a).received ++ (rest' j).map (messageOf np) =
        part j s.received ++ (rest j).map (messageOf np) := by
  have hinv := inv_step hnp s a h.inv
  cases a with
  | read i c answer => exact h.read hnp halone
  | sendData i now cmd object recvcmd cb write =>
      unfold Multiplexed.step at hinv ⊢
      rw [if_neg (by simp [h.running])] at hinv ⊢
      exact ⟨rest, ⟨hinv, h.running, h.pure, h.frames, h.held, h.flat⟩, fun _ => rfl⟩
  | create =>
      have hnil := h.inv.create_queued np h.running
      have hheld : ∀ j, (s.step np .create).held j = s.held j := fun j => by
        rw [held_of_nil hnil, held_of_nil halone]
      refine ⟨rest, ⟨hinv, ?_, ?_, h.frames, fun j => ?_, fun j => ?_⟩, fun _ => ?_⟩
      · rw [step_create h.running]
        exact h.running
      · rw [step_create h.running]
        exact h.pure
      · rw [hheld j]
        exact h.held j
      · rw [hheld j]
        exact h.flat j
      · rw [step_create h.running]

/-- Reading alone, every session receives its packets, and nothing is left. -/
theorem isolated_of_alone (hnp : np.Documented) {acts : List (Act ι κ)} :
    ∀ {s : Multiplexed ι κ} {rest : ι → List (List Byte)}, Ahead s rest acts →
      AllSteps (step np) (Alone np) s acts →
      (acts.foldl (step np) s).halted = false ∧ (acts.foldl (step np) s).Pure ∧
        ∀ i, part i (acts.foldl (step np) s).received =
          part i s.received ++ (rest i).map (messageOf np) := by
  induction acts with
  | nil =>
      intro s rest h _
      refine ⟨h.running, h.pure, ?_⟩
      intro i
      have hflat := h.flat i
      rw [show readsOf ([] : List (Act ι κ)) = [] from rfl, part_nil,
        show bytesOf [] = [] from rfl, List.append_nil] at hflat
      rw [(h.held i).eq_nil hflat, List.map_nil, List.append_nil]
      rfl
  | cons a acts ih =>
      intro s rest h hall
      obtain ⟨halone, hall⟩ := hall
      obtain ⟨rest', hahead, hreceived⟩ := h.step hnp halone
      obtain ⟨hrunning, hpure, hparts⟩ := ih hahead hall
      refine ⟨hrunning, hpure, ?_⟩
      intro j
      exact (hparts j).trans (hreceived j)

end Reads

/--
**Connections are isolated exactly when each reads alone.**

For any number of sessions on one processor, all lists of packets, every
segmentation and every interleaving of the read callbacks, with clients created and
reply callbacks registered in between: at the end the handler of each session has
received exactly the messages of its peer, in order and made of that peer's bytes
alone, if and only if whenever a session reads, all bytes that wait in the queue are
its own, and fewer than 2 GiB with those it brings, and its reply callbacks let
through every packet that is complete; and whenever a client is created, nothing waits.
-/
theorem isolated_iff_alone [DecidableEq ι] {np : NetPackage} (hnp : np.Documented)
    (sessions : ι → Attached κ) (packets : ι → List (List Byte))
    (hp : ∀ i, ∀ f ∈ packets i, Frame netFormat f) (acts : List (Act ι κ))
    (hreads : ∀ i, bytesOf (part i (readsOf acts)) = (packets i).flatten) :
    (acts.foldl (step np) (init sessions)).Isolated np packets ↔
      AllSteps (step np) (Alone np) (init sessions) acts := by
  have hinit := inv_init sessions
  constructor
  · intro hiso
    have hclean := clean_of_isolated hnp hp sessions acts hreads hiso
    exact (allSteps_of_final (inv_step hnp) (alone_of_clean hnp) hinit hclean).1
  · intro hall
    have hheld : ∀ i, (init sessions).held i = [] := held_of_nil rfl
    have hahead : Ahead (init sessions) packets acts := by
      refine ⟨hinit, rfl, fun _ he => absurd he List.not_mem_nil, hp, ?_, ?_⟩
      · intro i
        rw [hheld i]
        cases hpi : packets i with
        | nil => rfl
        | cons f fs => exact ⟨f, (hp i f (by rw [hpi]; simp)).ne_nil, rfl⟩
      · intro i
        rw [hheld i, hreads i, List.nil_append]
    obtain ⟨hrunning, hpure, hparts⟩ := isolated_of_alone hnp hahead hall
    exact ⟨hrunning, fun i => by rw [hparts i]; rfl, hpure⟩

/-- A session as a server makes it when it accepts a connection. -/
def accepted : Attached Empty :=
  ⟨((SocketSession.init (some 0)).create 0 .Server (some 0) 0 0).1, rfl, rfl⟩

/-- One packet with command `cmd` and no payload. -/
def heartbeat (cmd : Byte) : List Byte := [14, 0, 0, 0, 1, 1, cmd, 0, 0, 0, 0, 0, 0, 0]

/--
Two connections, one after the other, the first cut inside its packet; it has asked for
its reply to be left to the handler, and a client is created in between.
-/
theorem isolated_sequential :
    let packets : Bool → List (List Byte) := fun b => [heartbeat (if b then 1 else 2)]
    let acts : List (Act Bool Empty) :=
      [.sendData true 0 9 [] 1 none fun _ _ => 0,
        .read true ⟨[14, 0, 0, 0, 1, 1, 1], by decide, by decide⟩ nofun,
        .read true ⟨[0, 0, 0, 0, 0, 0, 0], by decide, by decide⟩ nofun,
        .create,
        .read false ⟨heartbeat 2, by decide, by decide⟩ nofun]
    (acts.foldl (step NetPackage.reference) (init fun _ => accepted)).Isolated
      NetPackage.reference packets := by
  refine (isolated_iff_alone NetPackage.reference_documented (fun _ => accepted) _ (by decide) _
    (by decide)).mpr ⟨trivial, ?_, ?_, rfl, ?_, trivial⟩
  · refine ⟨by decide, by decide, ?_⟩
    rintro f hf
    rw [Cuts.nil.completed_iff (by decide)] at hf
    exact absurd hf List.not_mem_nil
  · refine ⟨by decide, by decide, ?_⟩
    rintro f hf
    rw [(Cuts.cons (by decide) Cuts.nil).completed_iff (by decide)] at hf
    rw [List.mem_singleton.mp hf]
    decide
  · exact ⟨by decide, by decide, fun _ _ => rfl⟩

/-- The second connection becomes readable while the first is in the middle of its packet. -/
theorem not_isolated_interleaved :
    let packets : Bool → List (List Byte) := fun b => [heartbeat (if b then 1 else 2)]
    let acts : List (Act Bool Empty) :=
      [.read true ⟨[14, 0, 0, 0, 1, 1, 1], by decide, by decide⟩ nofun,
        .read false ⟨heartbeat 2, by decide, by decide⟩ nofun,
        .read true ⟨[0, 0, 0, 0, 0, 0, 0], by decide, by decide⟩ nofun]
    (∀ b, bytesOf (part b (readsOf acts)) = (packets b).flatten) ∧
      ¬ (acts.foldl (step NetPackage.reference) (init fun _ => accepted)).Isolated
        NetPackage.reference packets := by
  intro packets acts
  refine ⟨by decide, fun h => ?_⟩
  exact absurd (h.exact true) (by decide)

end Multiplexed

end NanomsgDemo.Net

import NanomsgDemo.Net.Feeding

/-!
# Receiving nanomsg messages

`libnet/nanomsg_socket.cpp`. A socket hands each message it receives to `parse`
on a core of its own. The messages arrive whole, but `parse` sees a byte stream:
what one message leaves in the queue stands in front of the next.

So a message made of whole packets is delivered by its own `recv` exactly when
nothing is held back from the messages before it.
-/

namespace NanomsgDemo.Net

open Framing Runs

/-- A message `nn_recv` can return: its length fits the `int` that reports it. -/
structure NnMsg where
  bytes : List Byte
  length_lt : bytes.length < 2 ^ 31

/-- `NanomsgSocket`. -/
structure NanomsgSocket where
  fd : Int32
  core : SocketCore

/-- What a call of `recv` did: the socket afterwards, the `onRecv` calls, and how it ended. -/
structure Received where
  sock : NanomsgSocket
  onRecv : List Message
  outcome : Outcome

namespace NanomsgSocket

/-- `NanomsgSocket::NanomsgSocket`. -/
def init : NanomsgSocket := ⟨-1, SocketCore.init⟩

/-- `NanomsgSocket::recv`, when `nn_recv` fails (`none`) or returns a message. -/
def recv (np : NetPackage) (s : NanomsgSocket) : Option NnMsg → Received
  | none => ⟨s, [], .returned (-1)⟩
  | some m =>
      let c := int32 m.bytes.length
      if 0 < c then
        let p := s.core.parse np (some m.bytes) c
        match p.outcome with
        | .returned _ => ⟨{ s with core := p.core }, p.calls, .returned c⟩
        | o => ⟨{ s with core := p.core }, p.calls, o⟩
      else ⟨s, [], .returned c⟩

/-- `NanomsgSocket::send` at time `now`: `nn` is what `nn_send` returns for the packet. -/
def send (np : NetPackage) (_s : NanomsgSocket) (now : UInt32) (cmd : Int32) (object : List Byte)
    (nn : List Byte → Int32) : Int32 :=
  SocketCore.send np now cmd object fun p => nn p.bytes

end NanomsgSocket

/-- A socket and its run so far: `halted` once a call has read outside of its memory. -/
structure Receiving where
  sock : NanomsgSocket
  halted : Bool

namespace Receiving

/-- A fresh socket. -/
def init : Receiving := ⟨NanomsgSocket.init, false⟩

/-- Receive one more message. -/
def step (np : NetPackage) (s : Receiving) (m : NnMsg) : Receiving :=
  if s.halted then s
  else
    let r := s.sock.recv np (some m)
    ⟨r.sock, r.outcome == .undefined⟩

/-- Nothing is held back from the messages received so far. -/
def Idle (s : Receiving) : Prop := s.halted = false ∧ s.sock.core.queued = []

end Receiving

/-- A message that by itself is a row of whole packets. -/
def NnMsg.Whole (m : NnMsg) (fs : List (List Byte)) : Prop :=
  (∀ f ∈ fs, Frame netFormat f) ∧ m.bytes = fs.flatten

/-- The next message is delivered completely and exactly, with nothing of it held back. -/
def Delivers (np : NetPackage) (s : Receiving) (m : NnMsg) (fs : List (List Byte)) : Prop :=
  s.halted = false ∧
    (s.sock.recv np (some m)).onRecv = fs.map (messageOf np) ∧
    (s.sock.recv np (some m)).outcome = .returned (int32 m.bytes.length) ∧
    (s.sock.recv np (some m)).sock.core.queued = []

theorem recv_nil {np : NetPackage} {s : NanomsgSocket} {m : NnMsg} (h : m.bytes = []) :
    s.recv np (some m) = ⟨s, [], .returned 0⟩ := by
  simp [NanomsgSocket.recv, h, int32]

/-- A non-empty message goes to `parse` as one chunk. -/
theorem recv_eq {np : NetPackage} {s : NanomsgSocket} {m : NnMsg} (h : m.bytes ≠ []) :
    s.recv np (some m) =
      { sock := { s with core := (s.core.feed np ⟨m.bytes, h, m.length_lt⟩).core }
        onRecv := (s.core.feed np ⟨m.bytes, h, m.length_lt⟩).calls
        outcome :=
          match (s.core.feed np ⟨m.bytes, h, m.length_lt⟩).outcome with
          | .returned _ => .returned (int32 m.bytes.length)
          | o => o } := by
  have hpos : (0 : Int32) < int32 m.bytes.length := int32_lt_iff.mpr (by
    have := List.length_pos_iff.mpr h
    rw [int32_toInt_of_lt m.length_lt]
    simpa using this)
  unfold NanomsgSocket.recv SocketCore.feed
  simp only [hpos, if_true]
  split <;> simp

/-- Rows of packets with the same messages have the same length. -/
theorem flatten_length_eq {np : NetPackage} (hnp : np.Documented) {fs gs : List (List Byte)}
    (hf : ∀ f ∈ fs, Frame netFormat f) (hg : ∀ g ∈ gs, Frame netFormat g)
    (h : fs.map (messageOf np) = gs.map (messageOf np)) :
    fs.flatten.length = gs.flatten.length := by
  induction fs generalizing gs with
  | nil =>
      cases gs with
      | nil => rfl
      | cons g gs => simp at h
  | cons f fs ih =>
      cases gs with
      | nil => simp at h
      | cons g gs =>
          obtain ⟨h1, h2⟩ := List.cons.inj h
          have hlen := congrArg (fun m => m.buf.length) h1
          simp only [messageOf_buf_length hnp] at hlen
          have hf14 := (frame_iff.mp (hf f (List.mem_cons_self ..))).1
          have hg14 := (frame_iff.mp (hg g (List.mem_cons_self ..))).1
          have := ih (fun x hx => hf x (List.mem_cons_of_mem _ hx))
            (fun x hx => hg x (List.mem_cons_of_mem _ hx)) h2
          simp only [List.flatten_cons, List.length_append]
          omega

/-! ## One message -/

theorem delivers_of_idle (np : NetPackage) {s : Receiving} {m : NnMsg} {fs : List (List Byte)}
    (hs : s.Idle) (hm : m.Whole fs) : Delivers np s m fs := by
  obtain ⟨hf, hbytes⟩ := hm
  by_cases hnil : m.bytes = []
  · have hfs : fs = [] := by
      cases fs with
      | nil => rfl
      | cons f fs =>
          rw [hnil, List.flatten_cons] at hbytes
          exact absurd (List.append_eq_nil_iff.mp hbytes.symm).1
            (hf f (List.mem_cons_self ..)).ne_nil
    subst hfs
    refine ⟨hs.1, ?_⟩
    rw [recv_nil hnil, hnil]
    exact ⟨rfl, rfl, hs.2⟩
  · have hlen := m.length_lt
    have hc : Cuts netFormat (s.sock.core.queued ++ m.bytes) fs [] := by
      have hrow := cuts_flatten_append (F := netFormat) (r := []) hf
        (netFormat_exact (by rw [List.append_nil, ← hbytes]; exact hlen))
      rw [hs.2, List.nil_append, hbytes]
      rwa [List.append_nil] at hrow
    have hw : Waits netFormat ([] : List Byte) := by decide
    refine ⟨hs.1, ?_⟩
    rw [recv_eq hnil, feed_of_waits np (c := ⟨m.bytes, hnil, m.length_lt⟩) hc hw]
    exact ⟨passes_calls _ _, rfl, rfl⟩

/-- Bytes held back stand in front of the message: it cannot come out exactly by itself. -/
theorem idle_of_delivers {np : NetPackage} (hnp : np.Documented) {s : Receiving} {m : NnMsg}
    {fs : List (List Byte)} (hm : m.Whole fs) (h : Delivers np s m fs) : s.Idle := by
  obtain ⟨hf, hbytes⟩ := hm
  obtain ⟨hh, hcalls, hout, hq⟩ := h
  refine ⟨hh, ?_⟩
  by_cases hnil : m.bytes = []
  · rw [recv_nil hnil] at hq
    exact hq
  obtain ⟨gs, r, hc, hr⟩ := exists_cuts netFormat (s.sock.core.queued ++ m.bytes)
  rw [recv_eq hnil, feed_eq np (c := ⟨m.bytes, hnil, m.length_lt⟩) hc hr] at hcalls hout hq
  -- the call returned, so it stopped at an incomplete packet: here, at the end
  have hw : Waits netFormat r := by
    by_contra hw
    dsimp only at hout
    split at hout
    · rename_i code hcode
      exact settled_outcome_ne hw code hcode
    · rename_i hne
      exact hne _ hout
  rw [settled_of_waits hw] at hcalls hq
  have hrnil : r = [] := hq
  -- the packages cut are not known to be `fs`, but they hold the same messages
  have hgs : gs.map (messageOf np) = fs.map (messageOf np) := by
    rw [← hcalls]
    exact (passes_calls _ _).symm
  have hlen := flatten_length_eq hnp hc.frame hf hgs
  have hflat := congrArg List.length hc.flatten
  rw [hrnil, List.append_nil, hlen, ← hbytes, List.length_append] at hflat
  exact List.length_eq_zero_iff.mp (by omega)

/-! ## Histories -/

theorem Receiving.idle_step {np : NetPackage} {s : Receiving} {m : NnMsg}
    {fs : List (List Byte)} (hs : s.Idle) (hm : m.Whole fs) : (s.step np m).Idle := by
  obtain ⟨hh, _, hout, hq⟩ := delivers_of_idle np hs hm
  unfold Receiving.step
  rw [if_neg (by rw [hh]; simp)]
  exact ⟨by simp [hout], hq⟩

theorem Receiving.idle_of_whole {np : NetPackage} {hist : List NnMsg}
    (h : ∀ m ∈ hist, ∃ fs, m.Whole fs) : (hist.foldl (Receiving.step np) Receiving.init).Idle := by
  refine invariant_of_allSteps (I := Receiving.Idle) (Q := fun _ m => ∃ fs, m.Whole fs)
    ⟨rfl, rfl⟩ (fun s m hs ⟨_, hm⟩ => s.idle_step hs hm) ?_
  exact allSteps_iff.mpr fun pre m post hq => h m (by rw [hq]; simp)

/--
**A message is isolated exactly when nothing is held back.**

For every history of messages, a message that by itself is a row of packets is
delivered completely and exactly by its own `recv`, with nothing of it held back,
if and only if no byte of the earlier messages is still in the queue. That is so,
in particular, when every earlier message was such a row itself.
-/
theorem recv_isolated_iff {np : NetPackage} (hnp : np.Documented) (hist : List NnMsg) (m : NnMsg)
    (fs : List (List Byte)) (hm : m.Whole fs) :
    (Delivers np (hist.foldl (Receiving.step np) Receiving.init) m fs ↔
        (hist.foldl (Receiving.step np) Receiving.init).Idle) ∧
      ((∀ h ∈ hist, ∃ gs, h.Whole gs) →
        Delivers np (hist.foldl (Receiving.step np) Receiving.init) m fs) :=
  ⟨⟨idle_of_delivers hnp hm, fun h => delivers_of_idle np h hm⟩,
    fun h => delivers_of_idle np (Receiving.idle_of_whole h) hm⟩

/-- Two packets in one message, received on a fresh socket. -/
theorem recv_isolated_fresh :
    Delivers NetPackage.reference ([].foldl (Receiving.step NetPackage.reference) Receiving.init)
      ⟨[15, 0, 0, 0, 1, 1, 7, 0, 0, 0, 0, 0, 0, 0, 9, 14, 0, 0, 0, 1, 1, 8, 0, 0, 0, 0, 0, 0, 0],
        by decide⟩
      [[15, 0, 0, 0, 1, 1, 7, 0, 0, 0, 0, 0, 0, 0, 9],
        [14, 0, 0, 0, 1, 1, 8, 0, 0, 0, 0, 0, 0, 0]] :=
  (recv_isolated_iff NetPackage.reference_documented [] _ _
    ⟨by decide, by decide⟩).2 (fun _ h => absurd h (List.not_mem_nil))

/-- One stray byte before it, and a packet that fills its message is not delivered. -/
theorem recv_after_stray_byte :
    (NnMsg.Whole ⟨[14, 0, 0, 0, 1, 1, 7, 0, 0, 0, 0, 0, 0, 0], by decide⟩
        [[14, 0, 0, 0, 1, 1, 7, 0, 0, 0, 0, 0, 0, 0]]) ∧
      (([⟨[0], by decide⟩].foldl (Receiving.step NetPackage.reference) Receiving.init).sock.recv
          NetPackage.reference
          (some ⟨[14, 0, 0, 0, 1, 1, 7, 0, 0, 0, 0, 0, 0, 0], by decide⟩)).onRecv ≠
        [[14, 0, 0, 0, 1, 1, 7, 0, 0, 0, 0, 0, 0, 0]].map (messageOf NetPackage.reference) :=
  ⟨⟨by decide, by decide⟩, by decide⟩

end NanomsgDemo.Net

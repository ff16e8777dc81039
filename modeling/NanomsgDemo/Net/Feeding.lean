import NanomsgDemo.Lib.Runs
import NanomsgDemo.Net.SocketCore

/-!
# A byte stream fed to one core

The stream arrives in chunks, each handed to `parse` as it comes. `Feeding` keeps
what can be seen of such a run: the queue, the packages taken off it, how each
call ended.

The result of this module is the round trip. Whatever `send` emitted comes out of
`parse` again, message by message, however the stream was cut; and between two
chunks the queue holds exactly the part of the current packet that has arrived.
-/

namespace NanomsgDemo.Net

open Framing Runs

/-- A chunk as `parse` receives it: some bytes, and a positive `lw_int32` that counts them. -/
structure Chunk where
  bytes : List Byte
  ne_nil : bytes ≠ []
  length_lt : bytes.length < 2 ^ 31

/-- All the bytes of some chunks. -/
def bytesOf (chunks : List Chunk) : List Byte := (chunks.map Chunk.bytes).flatten

/-- Hand one chunk to `parse`. -/
def SocketCore.feed (np : NetPackage) (core : SocketCore) (c : Chunk) : Parsed :=
  core.parse np (some c.bytes) (int32 c.bytes.length)

/-- The bytes waiting in the queue. -/
def SocketCore.queued (core : SocketCore) : List Byte := core.cq.cq

/-- A run of `parse` calls on one core. -/
structure Feeding where
  core : SocketCore
  trace : List Iteration
  outcomes : List Outcome

namespace Feeding

/-- Before the first chunk. -/
def init : Feeding := ⟨SocketCore.init, [], []⟩

/-- The callbacks made so far. -/
def calls (s : Feeding) : List Message := s.trace.filterMap Iteration.call

/-- Feed one more chunk. After undefined behaviour there is nothing left to follow. -/
def step (np : NetPackage) (s : Feeding) (c : Chunk) : Feeding :=
  if .undefined ∈ s.outcomes then s
  else
    let p := s.core.feed np c
    ⟨p.core, s.trace ++ p.trace, s.outcomes ++ [p.outcome]⟩

/-- Every call so far has returned `0`. -/
def Fine (s : Feeding) : Prop := ∀ o ∈ s.outcomes, o = .returned 0

/-- The queue and the chunk together stay below 2 GiB. -/
def Room (s : Feeding) (c : Chunk) : Prop :=
  s.core.queued.length + c.bytes.length < 2 ^ 31

instance (s : Feeding) (c : Chunk) : Decidable (s.Room c) := inferInstanceAs (Decidable (_ < _))

end Feeding

theorem feed_eq (np : NetPackage) {core : SocketCore} {c : Chunk} {r : List Byte}
    {fs : List (List Byte)} (hc : Cuts netFormat (core.queued ++ c.bytes) fs r)
    (hr : ¬ Ready netFormat r) :
    core.feed np c = settled np (core.queued ++ c.bytes) fs r := by
  have hpos := List.length_pos_iff.mpr c.ne_nil
  have hint := int32_toInt_of_lt c.length_lt
  have htake := take_int32_length c.length_lt
  unfold SocketCore.feed
  rw [parse_eq (by rw [hint]; omega) (by rw [htake]; exact hc) hr, htake]
  rfl

/-- A chunk that ends in an incomplete packet. -/
theorem feed_of_waits (np : NetPackage) {core : SocketCore} {c : Chunk} {r : List Byte}
    {fs : List (List Byte)} (hc : Cuts netFormat (core.queued ++ c.bytes) fs r)
    (hw : Waits netFormat r) :
    core.feed np c = ⟨⟨⟨r⟩⟩, passes np (core.queued ++ c.bytes) fs, .returned 0⟩ := by
  rw [feed_eq np hc hw.not_ready, settled_of_waits hw]

theorem passes_calls {np : NetPackage} (l : List Byte) (fs : List (List Byte)) :
    (passes np l fs).filterMap Iteration.call = fs.map (messageOf np) := by
  induction fs generalizing l with
  | nil => rfl
  | cons f fs ih => simp [passes, ih]

theorem Feeding.step_of_waits (np : NetPackage) {s : Feeding} {c : Chunk} {r : List Byte}
    {fs : List (List Byte)} (hs : s.Fine)
    (hc : Cuts netFormat (s.core.queued ++ c.bytes) fs r) (hw : Waits netFormat r) :
    (s.step np c).core.queued = r ∧ (s.step np c).calls = s.calls ++ fs.map (messageOf np) ∧
      (s.step np c).Fine := by
  have hdef : Outcome.undefined ∉ s.outcomes := fun h => by simpa using hs _ h
  unfold Feeding.step
  simp only [hdef, if_false, feed_of_waits np hc hw]
  refine ⟨rfl, ?_, ?_⟩
  · simp [Feeding.calls, passes_calls]
  · intro o ho
    rcases List.mem_append.mp ho with h | h
    · exact hs o h
    · exact List.mem_singleton.mp h

/-! ## A row of packets -/

/--
Chunks that make up an initial part of a row of packets deliver whole packets of
that row, in order, and leave the queue with what has arrived of the next one.
-/
theorem feed_frames (np : NetPackage) {q : List Byte} {chunks : List Chunk} :
    ∀ {fs : List (List Byte)} {s : Feeding}, (∀ f ∈ fs, Frame netFormat f) → s.Fine →
      fs.flatten = s.core.queued ++ bytesOf chunks ++ q → Held s.core.queued fs →
      AllSteps (Feeding.step np) Feeding.Room s chunks →
      ∃ done rest, fs = done ++ rest ∧
        s.core.queued ++ bytesOf chunks =
          done.flatten ++ (chunks.foldl (Feeding.step np) s).core.queued ∧
        Held (chunks.foldl (Feeding.step np) s).core.queued rest ∧
        (chunks.foldl (Feeding.step np) s).calls = s.calls ++ done.map (messageOf np) ∧
        (chunks.foldl (Feeding.step np) s).Fine := by
  induction chunks with
  | nil =>
      intro fs s _ hfine _ hheld _
      exact ⟨[], fs, rfl, by simp [bytesOf], hheld, by simp, hfine⟩
  | cons c chunks ih =>
      intro fs s hf hfine hflat _ hroom
      have hflat' : fs.flatten = (s.core.queued ++ c.bytes) ++ (bytesOf chunks ++ q) := by
        rw [hflat]; simp [bytesOf]
      -- the first chunk yields `done` and holds `r` back; the others meet the rest of the row
      obtain ⟨done, rest, r, h1, h2, h3⟩ := exists_cuts_held hf hflat'
        (netFormat_exact (by rw [List.length_append]; exact hroom.1))
      have hrest : ∀ f ∈ rest, Frame netFormat f := fun f hm =>
        hf f (by rw [h1]; exact List.mem_append_right _ hm)
      obtain ⟨hq, hcalls, hfine'⟩ := Feeding.step_of_waits np hfine h2 (h3.waits hrest)
      have hrow : rest.flatten = r ++ bytesOf chunks ++ q := by
        have := h2.flatten
        rw [h1, List.flatten_append, ← this] at hflat'
        simpa [List.append_assoc] using hflat'
      obtain ⟨done', rest', g1, g2, g3, g4, g5⟩ :=
        ih hrest hfine' (by rw [hq]; exact hrow) (by rw [hq]; exact h3) hroom.2
      refine ⟨done ++ done', rest', by rw [h1, g1, List.append_assoc], ?_, g3, ?_, g5⟩
      · have := h2.flatten
        rw [hq] at g2
        rw [List.flatten_append, List.append_assoc]
        show s.core.queued ++ bytesOf (c :: chunks) = done.flatten ++ (done'.flatten ++ _)
        rw [List.foldl_cons, ← g2, ← List.append_assoc, this]
        simp [bytesOf]
      · rw [List.foldl_cons, g4, hcalls, List.map_append, List.append_assoc]

/-! ## The round trip -/

/-- A message handed to `send`, small enough for the header's size field to count the packet. -/
structure Sent where
  now : UInt32
  cmd : Int32
  object : List Byte
  fits : 14 + object.length < 2 ^ 31

/-- The packet `send` emits for it. -/
def Sent.packet (np : NetPackage) (m : Sent) : List Byte :=
  SocketCore.send np m.now m.cmd m.object LwNetMessage.bytes

/-- What the receiver is to be told. -/
def Sent.message (m : Sent) : Message := ⟨m.cmd, m.object⟩

theorem Sent.packet_eq {np : NetPackage} (hnp : np.Documented) (m : Sent) :
    ∃ hd : NetHead, hd.size = int32 (14 + m.object.length) ∧ hd.cmd = m.cmd ∧
      m.packet np = hd.toBytes ++ m.object := by
  obtain ⟨hd, hsize, hcmd, hpack⟩ := hnp.pack m.now m.cmd m.object m.fits
  have hfits := m.fits
  refine ⟨hd, hsize, hcmd, ?_⟩
  rw [← hpack]
  refine SocketCore.send_bytes np m.now m.cmd m.object ?_
  rw [hpack, List.length_append, NetHead.toBytes_length]
  omega

theorem Sent.packet_frame {np : NetPackage} (hnp : np.Documented) (m : Sent) :
    Frame netFormat (m.packet np) := by
  obtain ⟨hd, hsize, _, hp⟩ := m.packet_eq hnp
  have hat : NetHead.sizeAt (m.packet np) = hd.size := by
    rw [hp]; exact congrArg NetHead.size (NetHead.ofBytes_toBytes hd m.object)
  refine frame_iff.mpr ⟨?_, ?_⟩
  · rw [hp, List.length_append, NetHead.toBytes_length]; omega
  · rw [hat, hsize, int32_toInt_of_lt m.fits, hp, List.length_append, NetHead.toBytes_length]

theorem Sent.messageOf_packet {np : NetPackage} (hnp : np.Documented) (m : Sent) :
    messageOf np (m.packet np) = m.message := by
  obtain ⟨hd, _, hcmd, hp⟩ := m.packet_eq hnp
  unfold messageOf
  rw [hp, NetHead.ofBytes_toBytes, hnp.unpack, List.drop_left' (NetHead.toBytes_length hd)]
  simp [Sent.message, hcmd]

theorem map_messageOf_packets {np : NetPackage} (hnp : np.Documented) (msgs : List Sent) :
    (msgs.map (Sent.packet np)).map (messageOf np) = msgs.map Sent.message := by
  rw [List.map_map]
  exact List.map_congr_left fun m _ => m.messageOf_packet hnp

/-- What holds after chunks that begin the packets of some messages. -/
theorem feed_sent {np : NetPackage} (hnp : np.Documented) (msgs : List Sent) {pre : List Chunk}
    {q : List Byte} (hcut : bytesOf pre ++ q = (msgs.map (Sent.packet np)).flatten)
    (hroom : AllSteps (Feeding.step np) Feeding.Room Feeding.init pre) :
    ∃ done rest, msgs = done ++ rest ∧
      (pre.foldl (Feeding.step np) Feeding.init).calls = done.map Sent.message ∧
      bytesOf pre = (done.map (Sent.packet np)).flatten ++
        (pre.foldl (Feeding.step np) Feeding.init).core.queued ∧
      Held (pre.foldl (Feeding.step np) Feeding.init).core.queued (rest.map (Sent.packet np)) ∧
      (pre.foldl (Feeding.step np) Feeding.init).Fine := by
  have hfr : ∀ f ∈ msgs.map (Sent.packet np), Frame netFormat f := by
    intro f hf
    obtain ⟨m, _, rfl⟩ := List.mem_map.mp hf
    exact m.packet_frame hnp
  have hinit : Held Feeding.init.core.queued (msgs.map (Sent.packet np)) := by
    cases msgs with
    | nil => rfl
    | cons m msgs => exact ⟨m.packet np, (m.packet_frame hnp).ne_nil, rfl⟩
  obtain ⟨done, rest, h1, h2, h3, h4, h5⟩ :=
    feed_frames np (q := q) (s := Feeding.init) hfr (fun o ho => absurd ho List.not_mem_nil)
      (by rw [← hcut]; rfl) hinit hroom
  obtain ⟨d, e, rfl, rfl, rfl⟩ := List.map_eq_append_iff.mp h1
  refine ⟨d, e, rfl, ?_, h2, h3, h5⟩
  rw [h4, map_messageOf_packets hnp]
  rfl

/--
**Framing round trip.**

Cut the packets of any messages into chunks in any way and feed them to an empty
core that never has to hold 2 GiB: every call returns `0`, the callbacks are the
messages in order, and the queue is empty at the end. After each chunk the
callbacks made are the messages whose packets have arrived in full, and the
queue holds what has arrived of the next packet.
-/
theorem feed_roundTrip {np : NetPackage} (hnp : np.Documented) (msgs : List Sent)
    (chunks : List Chunk) (hcut : bytesOf chunks = (msgs.map (Sent.packet np)).flatten)
    (hroom : AllSteps (Feeding.step np) Feeding.Room Feeding.init chunks) :
    (chunks.foldl (Feeding.step np) Feeding.init).calls = msgs.map Sent.message ∧
      (chunks.foldl (Feeding.step np) Feeding.init).core.queued = [] ∧
      (chunks.foldl (Feeding.step np) Feeding.init).Fine ∧
      ∀ pre post, chunks = pre ++ post → ∃ done rest, msgs = done ++ rest ∧
        (pre.foldl (Feeding.step np) Feeding.init).calls = done.map Sent.message ∧
        bytesOf pre = (done.map (Sent.packet np)).flatten ++
          (pre.foldl (Feeding.step np) Feeding.init).core.queued ∧
        Held (pre.foldl (Feeding.step np) Feeding.init).core.queued
          (rest.map (Sent.packet np)) := by
  have hpart : ∀ pre post, chunks = pre ++ post → ∃ done rest, msgs = done ++ rest ∧
      (pre.foldl (Feeding.step np) Feeding.init).calls = done.map Sent.message ∧
      bytesOf pre = (done.map (Sent.packet np)).flatten ++
        (pre.foldl (Feeding.step np) Feeding.init).core.queued ∧
      Held (pre.foldl (Feeding.step np) Feeding.init).core.queued (rest.map (Sent.packet np)) ∧
      (pre.foldl (Feeding.step np) Feeding.init).Fine := by
    rintro pre post rfl
    refine feed_sent hnp msgs (q := bytesOf post) ?_ (allSteps_append.mp hroom).1
    rw [← hcut]
    simp [bytesOf]
  obtain ⟨done, rest, h1, h2, h3, h4, h5⟩ := hpart chunks [] (by simp)
  -- all bytes have arrived, so no packet can be incomplete
  have hrest : rest.map (Sent.packet np) = [] := by
    have hall := h3.symm.trans hcut
    rw [h1, List.map_append, List.flatten_append] at hall
    exact h4.eq_nil (List.append_cancel_left hall).symm
  have hrest : rest = [] := List.map_eq_nil_iff.mp hrest
  subst hrest
  rw [List.append_nil] at h1
  subst h1
  refine ⟨h2, h4, h5, fun pre post hq => ?_⟩
  obtain ⟨d, e, g1, g2, g3, g4, _⟩ := hpart pre post hq
  exact ⟨d, e, g1, g2, g3, g4⟩

/-- Two messages, the second without a payload, cut inside the payload and inside the header. -/
theorem feed_roundTrip_two :
    let chunks : List Chunk :=
      [⟨[17, 0, 0, 0, 1, 1, 7, 0, 0, 0, 5, 0, 0, 0, 1, 2], by decide, by decide⟩,
        ⟨[3, 14, 0, 0], by decide, by decide⟩,
        ⟨[0, 1, 1, 8, 0, 0, 0, 6, 0, 0, 0], by decide, by decide⟩]
    (chunks.foldl (Feeding.step NetPackage.reference) Feeding.init).calls =
      [⟨7, [1, 2, 3]⟩, ⟨8, []⟩] :=
  (feed_roundTrip NetPackage.reference_documented
    [⟨5, 7, [1, 2, 3], by decide⟩, ⟨6, 8, [], by decide⟩] _ (by decide) (by decide)).1

end NanomsgDemo.Net

import NanomsgDemo.Lib.Framing
import NanomsgDemo.Net.NetHead

/-!
# The framing layer

`libnet/socket_core.cpp`. `send` puts a header in front of a message; `parse`
appends a chunk of received bytes to the queue and then takes packets off its
front, each packet being as long as its header says.

The loop of `parse` is split as the source splits it: `extract` is the section
under the lock, `deliver` is what happens to the package afterwards. Both are
exact about the header's unchecked size: a negative one makes `new[]` throw, one
below fourteen makes `deliver` read outside the package. Such a read has no
defined result, and the run of `parse` ends there as `undefined`. The log lines are
left out, also the one whose format asks for an argument more than it is given.

`parse_eq` is the one fact about `parse` that everything above uses: in terms of
`Framing.Cuts`, it says what a call delivers, what it leaves in the queue and how
it ends, for every queue and every chunk.
-/

namespace NanomsgDemo.Net

open Framing

/-- A callback of `parse`: the command, and the bytes that `bufsize` counts. -/
structure Message where
  cmd : Int32
  buf : List Byte
  deriving DecidableEq, Repr

/-- `LW_NET_MESSAGE`. -/
structure LwNetMessage where
  cmd : Int32
  buf : List Byte
  size : Int32
  deriving DecidableEq, Repr

/--
The `size` bytes from `buf` on, as `bufferevent_write` and `nn_send` take them. Their
`size_t` has 32 bits, so no size is negative there.
-/
def LwNetMessage.bytes (p : LwNetMessage) : List Byte := p.buf.take p.size.toUInt32.toNat

/-- `SocketCore`, less the mutex. -/
structure SocketCore where
  cq : CacheQueue
  deriving DecidableEq, Repr

/-- A core as its constructor leaves it. -/
def SocketCore.init : SocketCore := ⟨CacheQueue.empty⟩

/-- `SocketCore::send` at time `now`: what `func` makes of the packet. -/
def SocketCore.send {β : Type} (np : NetPackage) (now : UInt32) (cmd : Int32)
    (object : List Byte) (func : LwNetMessage → β) : β :=
  let msg := np.pack now cmd object
  func { cmd, buf := msg, size := int32 msg.length }

/-- All bytes of the packet are passed on. -/
theorem SocketCore.send_bytes (np : NetPackage) (now : UInt32) (cmd : Int32) (object : List Byte)
    (h : (np.pack now cmd object).length < 2 ^ 32) :
    SocketCore.send np now cmd object LwNetMessage.bytes = np.pack now cmd object := by
  have hsize : (int32 (np.pack now cmd object).length).toUInt32.toNat =
      (np.pack now cmd object).length := by
    unfold int32
    rw [Int32.toUInt32_ofNat', UInt32.toNat_ofNat_of_lt' h]
  show (np.pack now cmd object).take _ = _
  rw [hsize, List.take_length]

/-- What the locked section of the loop comes to. -/
inductive Extraction where
  /-- `hd->size` is read outside the queue. -/
  | undefined
  /-- Not a complete packet: `break`. -/
  | incomplete
  /-- `new lw_char8[hd->size]` throws. -/
  | threw
  /-- The package, the queue without it, and the new `dqs`. -/
  | extracted (package : Buffer) (cq : CacheQueue) (dqs : Int32)
  deriving DecidableEq, Repr

/-- The section of the loop under the lock. -/
def extract (q : CacheQueue) (dqs : Int32) : Extraction :=
  if q.front.length < 4 then .undefined
  else
    let size := NetHead.sizeAt q.front
    if dqs < size then .incomplete
    else if size < 0 then .threw
    else
      let package := q.frontCopyto (newBuffer size.toInt.toNat) size
      let q' := q.pop size
      .extracted package q' (int32 q'.size)

/--
The rest of the loop body: `none` when it reads outside what the package holds. The log
line takes in the whole header, whatever the package is.
-/
def deliver (np : NetPackage) (package : Buffer) : Option Message :=
  match package.read 0 14 with
  | none => none
  | some head =>
      let phd := NetHead.ofBytes head
      let bufLen := phd.size - C_NETHEAD_SIZE
      if bufLen < 0 then none
      else
        match package.read 14 bufLen.toInt.toNat with
        | none => none
        | some buf =>
            let msg := np.unpack phd buf
            some ⟨msg.1, msg.2⟩

/-- How a call of `parse` ends. -/
inductive Outcome where
  | returned (code : Int32)
  | threw
  | undefined
  | outOfFuel
  deriving DecidableEq, Repr

/-- One pass through the loop that took a package off the queue. -/
structure Iteration where
  before : CacheQueue
  package : Buffer
  after : CacheQueue
  /-- The callback made for it, `none` when the pass read outside the package. -/
  call : Option Message
  deriving DecidableEq, Repr

/-- A call of `parse`: the core afterwards, the passes through its loop, and how it ended. -/
structure Parsed where
  core : SocketCore
  trace : List Iteration
  outcome : Outcome
  deriving DecidableEq, Repr

/-- The callbacks a call of `parse` made, in order. -/
def Parsed.calls (p : Parsed) : List Message := p.trace.filterMap Iteration.call

/-- The `do … while (dqs >= C_NETHEAD_SIZE)` loop. -/
def parseLoop (np : NetPackage) : Nat → CacheQueue → Int32 → Parsed
  | 0, q, _ => ⟨⟨q⟩, [], .outOfFuel⟩
  | fuel + 1, q, dqs =>
      match extract q dqs with
      | .undefined => ⟨⟨q⟩, [], .undefined⟩
      | .incomplete => ⟨⟨q⟩, [], .returned 0⟩
      | .threw => ⟨⟨q⟩, [], .threw⟩
      | .extracted package q' dqs' =>
          match deliver np package with
          | none => ⟨⟨q'⟩, [⟨q, package, q', none⟩], .undefined⟩
          | some m =>
              let it : Iteration := ⟨q, package, q', some m⟩
              if C_NETHEAD_SIZE ≤ dqs' then
                let p := parseLoop np fuel q' dqs'
                { p with trace := it :: p.trace }
              else ⟨⟨q'⟩, [it], .returned 0⟩

/-- `SocketCore::parse`. The loop never runs out of its fuel: `parse_eq`. -/
def SocketCore.parse (np : NetPackage) (core : SocketCore) (buf : Option (List Byte))
    (size : Int32) : Parsed :=
  if size ≤ 0 then ⟨core, [], .returned (-1)⟩
  else
    match buf with
    | none => ⟨core, [], .returned (-2)⟩
    | some p =>
        let q := (core.cq.push (some p) size).1
        let dqs := int32 q.size
        if C_NETHEAD_SIZE ≤ dqs then parseLoop np (q.cq.length + 1) q dqs
        else ⟨⟨q⟩, [], .returned 0⟩

/-! ## The wire format -/

/-- The framing of the wire: the size field of the header, counted in `lw_int32`. -/
def netFormat : Format Byte where
  header := 14
  declared l := (NetHead.sizeAt l).toInt
  seen n := (int32 n).toInt
  header_pos := by decide
  declared_append l r h := by rw [NetHead.sizeAt_append h]
  seen_le := int32_toInt_le

theorem netFormat_exact {n : Nat} (h : n < 2 ^ 31) : Exact netFormat n := fun _ hm =>
  int32_toInt_of_lt (Nat.lt_of_le_of_lt hm h)

/-- The message in a packet. -/
def messageOf (np : NetPackage) (f : List Byte) : Message :=
  let msg := np.unpack (NetHead.ofBytes f) (f.drop 14)
  ⟨msg.1, msg.2⟩

/-- The payload is the packet less its header. -/
theorem messageOf_buf_length {np : NetPackage} (hnp : np.Documented) {f : List Byte} :
    (messageOf np f).buf.length = f.length - 14 := by
  unfold messageOf
  rw [hnp.unpack]
  simp

theorem toInt_14 : C_NETHEAD_SIZE.toInt = 14 := by decide

theorem header_le_iff {n : Int32} : C_NETHEAD_SIZE ≤ n ↔ 14 ≤ n.toInt := by
  rw [int32_le_iff, toInt_14]

theorem waits_iff {l : List Byte} : Waits netFormat l ↔
    (int32 l.length).toInt < 14 ∨ (int32 l.length).toInt < (NetHead.sizeAt l).toInt := Iff.rfl

theorem malformed_iff {l : List Byte} : Malformed netFormat l ↔
    14 ≤ (int32 l.length).toInt ∧ (NetHead.sizeAt l).toInt < 14 := Iff.rfl

theorem ready_iff {l : List Byte} : Ready netFormat l ↔
    14 ≤ (NetHead.sizeAt l).toInt ∧ (NetHead.sizeAt l).toInt ≤ (int32 l.length).toInt := Iff.rfl

theorem frame_iff {f : List Byte} : Frame netFormat f ↔
    14 ≤ f.length ∧ (NetHead.sizeAt f).toInt = f.length := Iff.rfl

instance (l : List Byte) : Decidable (Ready netFormat l) := decidable_of_iff' _ ready_iff

instance (l : List Byte) : Decidable (Waits netFormat l) := decidable_of_iff' _ waits_iff

instance (l : List Byte) : Decidable (Malformed netFormat l) := decidable_of_iff' _ malformed_iff

instance (f : List Byte) : Decidable (Frame netFormat f) := decidable_of_iff' _ frame_iff

/-! ## The two halves of the loop body -/

section Extract

variable {l : List Byte} {dqs : Int32}

theorem extract_of_size_gt (h4 : 4 ≤ l.length) (h : dqs.toInt < (NetHead.sizeAt l).toInt) :
    extract ⟨l⟩ dqs = .incomplete := by
  have hlt : dqs < NetHead.sizeAt l := int32_lt_iff.mpr h
  simp [extract, CacheQueue.front, show ¬ l.length < 4 by omega, hlt]

theorem extract_of_size_neg (h4 : 4 ≤ l.length) (h : (NetHead.sizeAt l).toInt ≤ dqs.toInt)
    (hneg : (NetHead.sizeAt l).toInt < 0) : extract ⟨l⟩ dqs = .threw := by
  have hle : ¬ dqs < NetHead.sizeAt l := fun hlt => by
    have := int32_lt_iff.mp hlt; omega
  have hneg' : NetHead.sizeAt l < 0 := int32_lt_iff.mpr (by simpa using hneg)
  simp [extract, CacheQueue.front, show ¬ l.length < 4 by omega, hle, hneg']

/-- A size the queue can serve: the package is the front of the queue, and leaves it. -/
theorem extract_of_size_le (h4 : 4 ≤ l.length) (h : (NetHead.sizeAt l).toInt ≤ dqs.toInt)
    (h0 : 0 ≤ (NetHead.sizeAt l).toInt) (hl : (NetHead.sizeAt l).toInt ≤ l.length) :
    extract ⟨l⟩ dqs =
      .extracted ((l.take (NetHead.sizeAt l).toInt.toNat).map some)
        ⟨l.drop (NetHead.sizeAt l).toInt.toNat⟩
        (int32 (l.drop (NetHead.sizeAt l).toInt.toNat).length) := by
  have hle : ¬ dqs < NetHead.sizeAt l := fun hlt => by
    have := int32_lt_iff.mp hlt; omega
  have hneg : ¬ NetHead.sizeAt l < 0 := fun hlt => by
    have : (NetHead.sizeAt l).toInt < 0 := by simpa using int32_lt_iff.mp hlt
    omega
  have hpop : (CacheQueue.mk l).pop (NetHead.sizeAt l) =
      ⟨l.drop (NetHead.sizeAt l).toInt.toNat⟩ :=
    congrArg CacheQueue.mk (pop_of_le (q := ⟨l⟩) h0 hl)
  have hcopy := frontCopyto_of_le (q := ⟨l⟩) h0 hl
  simp only [extract, CacheQueue.front, show ¬ l.length < 4 by omega, hle, hneg, if_false, hpop,
    hcopy, int32_size]

end Extract

/-- A whole packet is delivered as the message in it. -/
theorem deliver_frame {np : NetPackage} {f : List Byte} (hf : Frame netFormat f) :
    deliver np (f.map some) = some (messageOf np f) := by
  obtain ⟨h14, hsize⟩ := frame_iff.mp hf
  have hhead : NetHead.ofBytes (f.take 14) = NetHead.ofBytes f := by
    have := NetHead.ofBytes_append (l := f.take 14) (by rw [List.length_take]; omega) (f.drop 14)
    rw [List.take_append_drop] at this
    exact this.symm
  have hlen : ((NetHead.ofBytes f).size - C_NETHEAD_SIZE).toInt = f.length - 14 := by
    have hs : (NetHead.ofBytes f).size.toInt = f.length := hsize
    have := (NetHead.ofBytes f).size.toInt_lt
    rw [Int32.toInt_sub, hs, toInt_14, Int.bmod_def]
    split <;> omega
  have hnn : ¬ (NetHead.ofBytes f).size - C_NETHEAD_SIZE < 0 := fun hlt => by
    have := int32_lt_iff.mp hlt
    rw [hlen] at this
    simp at this
    omega
  have hr0 : Buffer.read (f.map some) 0 14 = some (f.take 14) := by
    rw [Buffer.read_map_some (by omega), List.drop_zero]
  have hr14 : Buffer.read (f.map some) 14 ((f.length : Int) - 14).toNat = some (f.drop 14) := by
    rw [Buffer.read_map_some (by omega), List.take_of_length_le (by rw [List.length_drop]; omega)]
  unfold deliver
  rw [hr0]
  simp only [hhead, hnn, if_false, hlen, hr14]
  rfl

theorem deliver_short {np : NetPackage} {buf : Buffer} (h : buf.length < 14) :
    deliver np buf = none := by
  unfold deliver
  rw [Buffer.read_of_short (by omega)]

/-! ## What a call of `parse` does -/

/-- The passes through the loop that take the packets `fs` off the front of `l`. -/
def passes (np : NetPackage) : List Byte → List (List Byte) → List Iteration
  | _, [] => []
  | l, f :: fs =>
      ⟨⟨l⟩, f.map some, ⟨l.drop f.length⟩, some (messageOf np f)⟩ :: passes np (l.drop f.length) fs

/-- The pass that meets a header declaring `0` to `13` bytes. -/
def faultyPass (r : List Byte) : Iteration :=
  let n := (NetHead.sizeAt r).toInt.toNat
  ⟨⟨r⟩, (r.take n).map some, ⟨r.drop n⟩, none⟩

/-- How a call ends whose loop has taken `fs` off `l` and finds nothing more ready in `r`. -/
def settled (np : NetPackage) (l : List Byte) (fs : List (List Byte)) (r : List Byte) : Parsed :=
  if Waits netFormat r then ⟨⟨⟨r⟩⟩, passes np l fs, .returned 0⟩
  else if (NetHead.sizeAt r).toInt < 0 then ⟨⟨⟨r⟩⟩, passes np l fs, .threw⟩
  else ⟨⟨(faultyPass r).after⟩, passes np l fs ++ [faultyPass r], .undefined⟩

theorem settled_of_waits {np : NetPackage} {l r : List Byte} {fs : List (List Byte)}
    (h : Waits netFormat r) : settled np l fs r = ⟨⟨⟨r⟩⟩, passes np l fs, .returned 0⟩ := if_pos h

/-- A call that does not stop at an incomplete packet does not return. -/
theorem settled_outcome_ne {np : NetPackage} {l r : List Byte} {fs : List (List Byte)}
    (h : ¬ Waits netFormat r) (code : Int32) : (settled np l fs r).outcome ≠ .returned code := by
  unfold settled
  rw [if_neg h]
  split <;> simp

theorem settled_cons {np : NetPackage} {l f r : List Byte} {fs : List (List Byte)} :
    settled np l (f :: fs) r =
      { settled np (l.drop f.length) fs r with
        trace := ⟨⟨l⟩, f.map some, ⟨l.drop f.length⟩, some (messageOf np f)⟩ ::
          (settled np (l.drop f.length) fs r).trace } := by
  unfold settled
  split
  · rfl
  · split <;> rfl

/-- Where nothing can be cut, the loop stops in its first pass. -/
theorem parseLoop_of_not_ready {np : NetPackage} {l : List Byte} (hr : ¬ Ready netFormat l)
    (fuel : Nat) (h14 : 14 ≤ (int32 l.length).toInt) :
    parseLoop np (fuel + 1) ⟨l⟩ (int32 l.length) = settled np l [] l := by
  have hlen := int32_toInt_le l.length
  rw [parseLoop]
  rcases not_ready_iff.mp hr with hw | hm
  · -- the packet is not complete yet
    have hgt : (int32 l.length).toInt < (NetHead.sizeAt l).toInt := by
      rcases waits_iff.mp hw with h | h <;> omega
    rw [extract_of_size_gt (by omega) hgt]
    simp [settled, hw, passes]
  · have hnw : ¬ Waits netFormat l := fun h => h.not_malformed hm
    obtain ⟨_, hs⟩ := malformed_iff.mp hm
    by_cases hneg : (NetHead.sizeAt l).toInt < 0
    · -- `new[]` throws
      rw [extract_of_size_neg (by omega) (by omega) hneg]
      simp [settled, hnw, hneg, passes]
    · -- the package is shorter than the header that is read out of it
      rw [extract_of_size_le (by omega) (by omega) (by omega) (by omega)]
      have hshort : ((l.take (NetHead.sizeAt l).toInt.toNat).map some).length < 14 := by
        rw [List.length_map, List.length_take]; omega
      simp only [deliver_short hshort]
      unfold settled
      rw [if_neg hnw, if_neg hneg]
      rfl

theorem parseLoop_eq {np : NetPackage} {l r : List Byte} {fs : List (List Byte)}
    (hc : Cuts netFormat l fs r) (hr : ¬ Ready netFormat r) :
    ∀ {fuel : Nat}, l.length < fuel → 14 ≤ (int32 l.length).toInt →
      parseLoop np fuel ⟨l⟩ (int32 l.length) = settled np l fs r := by
  induction hc with
  | @nil l =>
      intro fuel hfuel h14
      obtain ⟨fuel, rfl⟩ : ∃ k, fuel = k + 1 := ⟨fuel - 1, by omega⟩
      exact parseLoop_of_not_ready hr fuel h14
  | @cons l fs r hready hrest ih =>
      intro fuel hfuel h14
      obtain ⟨fuel, rfl⟩ : ∃ k, fuel = k + 1 := ⟨fuel - 1, by omega⟩
      obtain ⟨h1, h2⟩ := ready_iff.mp hready
      have hle := int32_toInt_le l.length
      have hfr := hready.frame
      rw [settled_cons, hready.length_take, parseLoop]
      -- from here on the frame is as long as the size field says
      rw [show netFormat.declared l = (NetHead.sizeAt l).toInt from rfl] at *
      rw [extract_of_size_le (by omega) (by omega) (by omega) (by omega)]
      simp only [deliver_frame hfr, header_le_iff]
      by_cases hmore : 14 ≤ (int32 (l.drop (NetHead.sizeAt l).toInt.toNat).length).toInt
      · -- the loop goes round
        have hlt : (l.drop (NetHead.sizeAt l).toInt.toNat).length < fuel := by
          rw [List.length_drop]; omega
        rw [if_pos hmore, ih hr hlt hmore]
      · -- less than a header is left: nothing more can be cut
        rw [if_neg hmore]
        have hw : Waits netFormat (l.drop (NetHead.sizeAt l).toInt.toNat) :=
          waits_iff.mpr (Or.inl (by omega))
        obtain ⟨h3, h4⟩ := Cuts.nil.unique hw.not_ready hrest hr
        subst h3; subst h4
        rw [settled_of_waits hw]
        rfl

/--
**What a call of `parse` does.**

The chunk is appended to the queue; if the result is cut into the packets `fs`
and a rest `r` with nothing ready in it, the call makes the callbacks for `fs`
and ends as `r` makes it end.
-/
theorem parse_eq {np : NetPackage} {core : SocketCore} {chunk r : List Byte} {size : Int32}
    {fs : List (List Byte)} (hsize : 0 < size.toInt)
    (hc : Cuts netFormat (core.cq.cq ++ chunk.take size.toInt.toNat) fs r)
    (hr : ¬ Ready netFormat r) :
    core.parse np (some chunk) size =
      settled np (core.cq.cq ++ chunk.take size.toInt.toNat) fs r := by
  have hpos : ¬ size ≤ 0 := fun h => by
    have := int32_le_iff.mp h
    simp at this
    omega
  unfold SocketCore.parse
  simp only [hpos, if_false, push_of_pos _ _ hsize, int32_size, header_le_iff]
  by_cases h14 : 14 ≤ (int32 (core.cq.cq ++ chunk.take size.toInt.toNat).length).toInt
  · rw [if_pos h14]
    exact parseLoop_eq hc hr (Nat.lt_succ_self _) h14
  · -- less than a header is buffered: the loop is not entered
    rw [if_neg h14]
    have hw : Waits netFormat (core.cq.cq ++ chunk.take size.toInt.toNat) :=
      waits_iff.mpr (Or.inl (by omega))
    obtain ⟨h1, h2⟩ := Cuts.nil.unique hw.not_ready hc hr
    subst h1; subst h2
    rw [settled_of_waits hw]
    rfl

end NanomsgDemo.Net

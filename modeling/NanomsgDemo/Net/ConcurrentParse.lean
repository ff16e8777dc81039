import Mathlib.Logic.Function.Basic
import NanomsgDemo.Lib.Runs
import NanomsgDemo.Lib.Tagged
import NanomsgDemo.Net.SocketCore

/-!
# Several calls of `parse` on one core

`parse` takes the lock to append its chunk and read `dqs`, and again for each
package it takes off the queue. In between, other calls run. `dqs` is local to a
call, so a call that comes back to the lock may hold the length of a queue that
another call has emptied meanwhile; it then reads a header out of an empty vector.

`step` is one call moving on by one such section, or delivering the package it
has just taken. A schedule is the list of the calls that move. The ghost fields
record what was appended, taken and delivered, and by whom.

As long as no call comes to the lock of its loop after the queue has been emptied,
all is well: `Whole` says what each section finds and does, and when every call
has returned, every packet has been delivered once.
-/

namespace NanomsgDemo.Net.ConcurrentParse

open Framing Runs Tagged

/-- What one call is to feed: a row of one or more whole packets, as one chunk. -/
structure Call where
  packets : List (List Byte)
  ne_nil : packets ≠ []
  frame : ∀ f ∈ packets, Frame netFormat f
  length_lt : packets.flatten.length < 2 ^ 31

/-- The chunk of a call. -/
def Call.bytes (c : Call) : List Byte := c.packets.flatten

theorem Call.length_ge (c : Call) : 14 ≤ c.bytes.length := by
  obtain ⟨f, fs, hfs⟩ := List.exists_cons_of_ne_nil c.ne_nil
  have := (frame_iff.mp (c.frame f (by simp [hfs]))).1
  unfold Call.bytes
  rw [hfs, List.flatten_cons, List.length_append]
  omega

/-- Where a call of `parse` stands. -/
inductive Pc where
  | start
  /-- Before the locked section of the loop, with the `dqs` it read last. -/
  | looping (dqs : Int32)
  /-- After that section, with the package it took. -/
  | delivering (package : Buffer) (dqs : Int32)
  | returned
  /-- An exception, or a read outside the queue or the package. -/
  | failed
  deriving DecidableEq

/-- The core, the calls on it, and the ghost record of what happened. -/
structure Shared (ι : Type) where
  cq : CacheQueue
  pc : ι → Pc
  /-- All packets appended, in order. -/
  appended : List (List Byte)
  /-- The packages taken off the queue, in order, each with the call that took it. -/
  extracted : List (ι × Buffer)
  /-- The callbacks, in order, each with the call that made it. -/
  delivered : List (ι × Message)

variable {ι : Type} [DecidableEq ι] (np : NetPackage) (input : ι → Call)

/-- An empty core, and no call begun. -/
def init : Shared ι := ⟨CacheQueue.empty, fun _ => .start, [], [], []⟩

/-- Back at the loop test, `while (dqs >= C_NETHEAD_SIZE)`. -/
def loopTest (dqs : Int32) : Pc := if C_NETHEAD_SIZE ≤ dqs then .looping dqs else .returned

/-- Call `i` moves on by one section. -/
def step (s : Shared ι) (i : ι) : Shared ι :=
  match s.pc i with
  | .start =>
      let q := (s.cq.push (some (input i).bytes) (int32 (input i).bytes.length)).1
      { s with
        cq := q
        pc := Function.update s.pc i (loopTest (int32 q.size))
        appended := s.appended ++ (input i).packets }
  | .looping dqs =>
      match extract s.cq dqs with
      | .undefined => { s with pc := Function.update s.pc i .failed }
      | .threw => { s with pc := Function.update s.pc i .failed }
      | .incomplete => { s with pc := Function.update s.pc i .returned }
      | .extracted package q dqs' =>
          { s with
            cq := q
            pc := Function.update s.pc i (.delivering package dqs')
            extracted := s.extracted ++ [(i, package)] }
  | .delivering package dqs =>
      match deliver np package with
      | none => { s with pc := Function.update s.pc i .failed }
      | some m =>
          { s with
            pc := Function.update s.pc i (loopTest dqs)
            delivered := s.delivered ++ [(i, m)] }
  | .returned => s
  | .failed => s

/-- The buffered bytes stay below 2 GiB. -/
def Room (s : Shared ι) (i : ι) : Prop :=
  s.pc i = .start → s.cq.cq.length + (input i).bytes.length < 2 ^ 31

/-- A call does not come to the section of its loop after the queue has been emptied. -/
def NotDrained (s : Shared ι) (i : ι) : Prop := ∀ dqs, s.pc i = .looping dqs → s.cq.cq ≠ []

instance (s : Shared ι) (i : ι) : Decidable (Room input s i) :=
  inferInstanceAs (Decidable (_ → _ < _))

instance (s : Shared ι) (i : ι) : Decidable (NotDrained s i) :=
  match h : s.pc i with
  | .looping _ => decidable_of_iff (s.cq.cq ≠ [])
      ⟨fun hne _ _ => hne, fun hd => hd _ h⟩
  | .start | .delivering .. | .returned | .failed => isTrue fun _ hd => by simp [h] at hd

/--
What the section of the loop should find: a header, with the whole packet it
declares behind it, which is either left alone or copied in full and removed.
-/
structure Whole (q : CacheQueue) (dqs : Int32) : Prop where
  size_ge : 14 ≤ (NetHead.sizeAt q.front).toInt
  size_le : (NetHead.sizeAt q.front).toInt ≤ q.cq.length
  copied : extract q dqs = .incomplete ∨
    ∃ f rest, q.cq = f ++ rest ∧ (f.length : Int) = (NetHead.sizeAt q.front).toInt ∧
      extract q dqs = .extracted (f.map some) ⟨rest⟩ (int32 rest.length)

/-- Every call that has begun has returned. -/
def Quiet (s : Shared ι) : Prop := ∀ i, s.pc i = .start ∨ s.pc i = .returned

/-- Every packet appended has been delivered exactly once, and nothing is left. -/
def Exactly (s : Shared ι) : Prop :=
  s.cq.cq = [] ∧ (s.delivered.map Prod.snd).Perm (s.appended.map (messageOf np))

/-! ## The invariant -/

/-- The package a call has in hand. -/
def inHand : Pc → List Buffer
  | .delivering package _ => [package]
  | _ => []

/-- A call that has still to look at the queue, and takes it to hold at least `n` bytes. -/
def Awaits (n : Nat) : Pc → Prop
  | .looping dqs => n ≤ dqs.toInt
  | .delivering _ dqs => n ≤ dqs.toInt
  | _ => False

/-- A call that has not failed, and whose package, if it has one, is a whole packet. -/
def Sound (p : Pc) : Prop :=
  p ≠ .failed ∧ ∀ package ∈ inHand p, ∃ f, Frame netFormat f ∧ package = f.map some

structure Inv (s : Shared ι) : Prop where
  frames : ∀ f ∈ s.appended, Frame netFormat f
  /-- The packages taken, and then the queue, are the packets appended. -/
  queue : ∃ taken pending, s.appended = taken ++ pending ∧
    s.extracted.map Prod.snd = taken.map (List.map some) ∧ s.cq.cq = pending.flatten
  room : s.cq.cq.length < 2 ^ 31
  /-- As long as something is queued, a call that knows of all of it is on its way. -/
  drains : s.cq.cq ≠ [] → ∃ i, Awaits s.cq.cq.length (s.pc i)
  /-- Each call delivers what it takes, in order. -/
  delivers : ∀ i, (part i s.extracted).map (deliver np) =
    (part i s.delivered).map some ++ (inHand (s.pc i)).map (deliver np)
  sound : ∀ i, Sound (s.pc i)

variable {np input}

theorem inv_init : Inv np (init : Shared ι) where
  frames := by simp [init]
  queue := ⟨[], [], rfl, rfl, rfl⟩
  room := Nat.two_pow_pos 31
  drains := fun h => absurd rfl h
  delivers := fun _ => rfl
  sound := fun _ => ⟨Pc.noConfusion, fun _ h => absurd h List.not_mem_nil⟩

theorem awaits_update {s : Shared ι} {i j : ι} {p : Pc} {n : Nat} (hji : j ≠ i)
    (h : Awaits n (s.pc j)) : Awaits n (Function.update s.pc i p j) := by
  rwa [Function.update_of_ne hji]

theorem loopTest_of_le {dqs : Int32} (h : 14 ≤ dqs.toInt) : loopTest dqs = .looping dqs :=
  if_pos (header_le_iff.mpr h)

theorem inHand_loopTest (dqs : Int32) : inHand (loopTest dqs) = [] := by
  unfold loopTest; split <;> rfl

theorem sound_loopTest (dqs : Int32) : Sound (loopTest dqs) := by
  refine ⟨?_, fun package hm => ?_⟩
  · unfold loopTest; split <;> simp
  · rw [inHand_loopTest] at hm
    exact absurd hm List.not_mem_nil

theorem sound_update {pc : ι → Pc} {i : ι} {p : Pc} (h : ∀ j, Sound (pc j)) (hp : Sound p) :
    ∀ j, Sound (Function.update pc i p j) :=
  (Function.forall_update_iff pc fun _ q => Sound q).mpr ⟨hp, fun j _ => h j⟩

theorem awaits_loopTest {n : Nat} {dqs : Int32} (hn : 14 ≤ n) (h : n ≤ dqs.toInt) :
    Awaits n (loopTest dqs) := by
  rw [loopTest_of_le (by omega)]; exact h

/-- A queue that is a row of packets and not empty starts with one of them. -/
theorem Inv.front {s : Shared ι} (h : Inv np s) (hne : s.cq.cq ≠ []) :
    ∃ taken f pending, s.appended = taken ++ f :: pending ∧
      s.extracted.map Prod.snd = taken.map (List.map some) ∧
      s.cq.cq = f ++ pending.flatten ∧ Frame netFormat f := by
  obtain ⟨taken, pending, h1, h2, h3⟩ := h.queue
  cases pending with
  | nil => exact absurd h3 hne
  | cons f pending =>
      exact ⟨taken, f, pending, h1, h2, h3, h.frames f (by rw [h1]; simp)⟩

theorem Inv.length_ge {s : Shared ι} (h : Inv np s) (hne : s.cq.cq ≠ []) :
    14 ≤ s.cq.cq.length := by
  obtain ⟨_, f, _, _, _, h3, hf⟩ := h.front hne
  have := (frame_iff.mp hf).1
  rw [h3, List.length_append]
  omega

/-- The header at the front of the queue declares the packet that is there. -/
theorem sizeAt_front {f : List Byte} (rest : List Byte) (hf : Frame netFormat f) :
    (NetHead.sizeAt (f ++ rest)).toInt = f.length := by
  obtain ⟨h14, hsize⟩ := frame_iff.mp hf
  rw [NetHead.sizeAt_append h14, hsize]

theorem extract_front {f : List Byte} (rest : List Byte) (dqs : Int32) (hf : Frame netFormat f) :
    (dqs.toInt < f.length ∧ extract ⟨f ++ rest⟩ dqs = .incomplete) ∨
      ((f.length : Int) ≤ dqs.toInt ∧
        extract ⟨f ++ rest⟩ dqs = .extracted (f.map some) ⟨rest⟩ (int32 rest.length)) := by
  have h14 := (frame_iff.mp hf).1
  have hsize := sizeAt_front rest hf
  have h4 : 4 ≤ (f ++ rest).length := by rw [List.length_append]; omega
  rcases Int.lt_or_le dqs.toInt f.length with hlt | hle
  · exact Or.inl ⟨hlt, extract_of_size_gt h4 (by rw [hsize]; exact hlt)⟩
  · right
    refine ⟨hle, ?_⟩
    rw [extract_of_size_le h4 (by rw [hsize]; exact hle) (by rw [hsize]; omega)
      (by rw [hsize, List.length_append]; omega), hsize]
    simp

/-- **The section of the loop finds a whole packet whenever the queue is not empty.** -/
theorem Inv.whole {s : Shared ι} (h : Inv np s) (hne : s.cq.cq ≠ []) (dqs : Int32) :
    Whole s.cq dqs := by
  obtain ⟨_, f, pending, _, _, h3, hf⟩ := h.front hne
  have hq : s.cq = ⟨f ++ pending.flatten⟩ := by rw [← h3]
  have hsize : (NetHead.sizeAt s.cq.front).toInt = f.length := by
    rw [hq]; exact sizeAt_front _ hf
  have h14 := (frame_iff.mp hf).1
  refine ⟨by rw [hsize]; omega, by rw [hsize, h3, List.length_append]; omega, ?_⟩
  rw [hsize, hq]
  rcases extract_front pending.flatten dqs hf with ⟨_, he⟩ | ⟨_, he⟩
  · exact Or.inl he
  · exact Or.inr ⟨f, _, rfl, rfl, he⟩

/-! ## One step -/

theorem inv_start {s : Shared ι} {i : ι} (h : Inv np s) (hpc : s.pc i = .start)
    (hroom : Room input s i) : Inv np (step np input s i) := by
  have hlen := hroom hpc
  have h14 := (input i).length_ge
  have hint : (int32 (input i).bytes.length).toInt = (input i).bytes.length :=
    int32_toInt_of_lt (input i).length_lt
  have hpush : (s.cq.push (some (input i).bytes) (int32 (input i).bytes.length)).1 =
      ⟨s.cq.cq ++ (input i).bytes⟩ := by
    rw [push_of_pos _ _ (by rw [hint]; omega),
      take_int32_length (p := (input i).bytes) (input i).length_lt]
  have hstep : step np input s i =
      { s with
        cq := ⟨s.cq.cq ++ (input i).bytes⟩
        pc := Function.update s.pc i (loopTest (int32 (s.cq.cq ++ (input i).bytes).length))
        appended := s.appended ++ (input i).packets } := by
    unfold step
    rw [hpc]
    simp only [hpush, int32_size]
  rw [hstep]
  obtain ⟨taken, pending, h1, h2, h3⟩ := h.queue
  refine ⟨?_, ⟨taken, pending ++ (input i).packets, ?_, h2, ?_⟩, ?_, ?_, ?_, ?_⟩
  · intro f hf
    rcases List.mem_append.mp hf with hf | hf
    · exact h.frames f hf
    · exact (input i).frame f hf
  · rw [h1, List.append_assoc]
  · show s.cq.cq ++ (input i).bytes = _
    rw [h3, List.flatten_append]; rfl
  · show (s.cq.cq ++ (input i).bytes).length < 2 ^ 31
    rw [List.length_append]; exact hlen
  · -- the call that has just appended knows of everything queued
    intro _
    refine ⟨i, ?_⟩
    simp only [Function.update_self]
    refine awaits_loopTest (by rw [List.length_append]; omega) ?_
    exact Int.le_of_eq (int32_toInt_of_lt (by rw [List.length_append]; exact hlen)).symm
  · refine (Function.forall_update_iff _ fun j p => _ = _ ++ (inHand p).map (deliver np)).mpr
      ⟨?_, fun j _ => h.delivers j⟩
    have hi := h.delivers i
    rw [hpc] at hi
    rw [inHand_loopTest]
    exact hi
  · exact sound_update h.sound (sound_loopTest _)

/-- A call whose `dqs` is out of date and too small returns, and leaves the packet to another. -/
theorem inv_incomplete {s : Shared ι} {i : ι} {dqs : Int32} (h : Inv np s)
    (hpc : s.pc i = .looping dqs) (hne : s.cq.cq ≠ []) (hshort : dqs.toInt < s.cq.cq.length)
    (he : extract s.cq dqs = .incomplete) : Inv np (step np input s i) := by
  have hstep : step np input s i = { s with pc := Function.update s.pc i .returned } := by
    unfold step
    rw [hpc]
    simp only [he]
  rw [hstep]
  refine ⟨h.frames, h.queue, h.room, ?_, ?_, ?_⟩
  · intro _
    obtain ⟨j, hj⟩ := h.drains hne
    have hji : j ≠ i := by
      rintro rfl
      rw [hpc] at hj
      simp only [Awaits] at hj
      omega
    exact ⟨j, awaits_update hji hj⟩
  · refine (Function.forall_update_iff _ fun j p => _ = _ ++ (inHand p).map (deliver np)).mpr
      ⟨?_, fun j _ => h.delivers j⟩
    have hi := h.delivers i
    rwa [hpc] at hi
  · exact sound_update h.sound ⟨Pc.noConfusion, fun _ hm => absurd hm List.not_mem_nil⟩

/-- A call that takes the first packet. -/
theorem inv_extracted {s : Shared ι} {i : ι} {dqs : Int32} {taken pending : List (List Byte)}
    {f : List Byte} (h : Inv np s) (hpc : s.pc i = .looping dqs)
    (happended : s.appended = taken ++ f :: pending)
    (htaken : s.extracted.map Prod.snd = taken.map (List.map some))
    (hq : s.cq.cq = f ++ pending.flatten) (hf : Frame netFormat f)
    (he : extract s.cq dqs =
      .extracted (f.map some) ⟨pending.flatten⟩ (int32 pending.flatten.length)) :
    Inv np (step np input s i) := by
  have hlt := h.room
  rw [hq, List.length_append] at hlt
  have hstep : step np input s i =
      { s with
        cq := ⟨pending.flatten⟩
        pc := Function.update s.pc i (.delivering (f.map some) (int32 pending.flatten.length))
        extracted := s.extracted ++ [(i, f.map some)] } := by
    unfold step
    rw [hpc]
    simp only [he]
  rw [hstep]
  refine ⟨h.frames, ⟨taken ++ [f], pending, ?_, ?_, rfl⟩, ?_, ?_, ?_, ?_⟩
  · rw [happended]; simp
  · rw [List.map_append, htaken]; simp
  · show pending.flatten.length < 2 ^ 31
    omega
  · -- the call has just read how much is left
    intro _
    refine ⟨i, ?_⟩
    simp only [Function.update_self, Awaits]
    exact Int.le_of_eq (int32_toInt_of_lt (by omega)).symm
  · refine (Function.forall_update_iff _ fun j p => (part j _).map _ =
      _ ++ (inHand p).map (deliver np)).mpr ⟨?_, fun j hji => ?_⟩
    · have hi := h.delivers i
      rw [hpc] at hi
      rw [part_append, part_singleton_self, List.map_append, hi]
      simp [inHand]
    · rw [part_append, part_singleton_of_ne (Ne.symm hji), List.append_nil]
      exact h.delivers j
  · exact sound_update h.sound
      ⟨Pc.noConfusion, fun package hm => ⟨f, hf, List.mem_singleton.mp hm⟩⟩

theorem inv_looping {s : Shared ι} {i : ι} {dqs : Int32} (h : Inv np s)
    (hpc : s.pc i = .looping dqs) (hne : s.cq.cq ≠ []) : Inv np (step np input s i) := by
  obtain ⟨taken, f, pending, h1, h2, h3, hf⟩ := h.front hne
  have hq : s.cq = ⟨f ++ pending.flatten⟩ := by rw [← h3]
  rcases extract_front pending.flatten dqs hf with ⟨hd, he⟩ | ⟨hd, he⟩
  · have hshort : dqs.toInt < s.cq.cq.length := by
      rw [h3, List.length_append]
      omega
    exact inv_incomplete h hpc hne hshort (by rw [hq, he])
  · exact inv_extracted h hpc h1 h2 h3 hf (by rw [hq, he])

theorem inv_delivering {s : Shared ι} {i : ι} {package : Buffer} {dqs : Int32} (h : Inv np s)
    (hpc : s.pc i = .delivering package dqs) : Inv np (step np input s i) := by
  obtain ⟨f, hf, rfl⟩ := (h.sound i).2 package (by rw [hpc]; exact List.mem_singleton.mpr rfl)
  have hstep : step np input s i =
      { s with
        pc := Function.update s.pc i (loopTest dqs)
        delivered := s.delivered ++ [(i, messageOf np f)] } := by
    unfold step
    rw [hpc]
    simp only [deliver_frame hf]
  rw [hstep]
  refine ⟨h.frames, h.queue, h.room, ?_, ?_, ?_⟩
  · intro hne
    obtain ⟨j, hj⟩ := h.drains hne
    by_cases hji : j = i
    · -- the call that knows of everything queued goes round its loop
      subst hji
      rw [hpc] at hj
      refine ⟨j, ?_⟩
      simp only [Function.update_self]
      exact awaits_loopTest (h.length_ge hne) hj
    · exact ⟨j, awaits_update hji hj⟩
  · refine (Function.forall_update_iff _ fun j p => _ =
      (part j _).map _ ++ (inHand p).map (deliver np)).mpr ⟨?_, fun j hji => ?_⟩
    · have hi := h.delivers i
      rw [hpc] at hi
      rw [hi, inHand_loopTest, part_append, part_singleton_self]
      simp [inHand, deliver_frame hf]
    · rw [part_append, part_singleton_of_ne (Ne.symm hji), List.append_nil]
      exact h.delivers j
  · exact sound_update h.sound (sound_loopTest _)

/-- **One step, wherever the call stands.** -/
theorem inv_step {s : Shared ι} {i : ι} (h : Inv np s) (hroom : Room input s i)
    (hdrain : NotDrained s i) : Inv np (step np input s i) := by
  cases hpc : s.pc i with
  | start => exact inv_start h hpc hroom
  | looping dqs => exact inv_looping h hpc (hdrain dqs hpc)
  | delivering package dqs => exact inv_delivering h hpc
  | returned =>
      have hstep : step np input s i = s := by unfold step; rw [hpc]
      rwa [hstep]
  | failed => exact absurd hpc (h.sound i).1

theorem inv_reachable {schedule : List ι} (h : AllSteps (step np input) (Room input) init schedule)
    (hd : AllSteps (step np input) NotDrained init schedule) :
    AllStates (step np input) (Inv np) init schedule :=
  allStates_of_allSteps (Q := fun s i => Room input s i ∧ NotDrained s i) inv_init
    (fun _ _ hi ho => inv_step hi ho.1 ho.2) (allSteps_and.mpr ⟨h, hd⟩)

/-! ## When every call has returned -/

theorem empty_of_quiet {s : Shared ι} (h : Inv np s) (hq : Quiet s) : s.cq.cq = [] := by
  by_contra hne
  obtain ⟨i, hi⟩ := h.drains hne
  rcases hq i with hpc | hpc <;> rw [hpc] at hi <;> exact hi

/-- The packages taken and the callbacks made are the same packets, each equally often. -/
theorem exactly_of_quiet {s : Shared ι} (h : Inv np s) (hq : Quiet s) : Exactly np s := by
  have hempty := empty_of_quiet h hq
  obtain ⟨taken, pending, h1, h2, h3⟩ := h.queue
  have hpending : pending = [] := by
    cases pending with
    | nil => rfl
    | cons f pending =>
        rw [hempty, List.flatten_cons] at h3
        exact absurd (List.append_eq_nil_iff.mp h3.symm).1 (h.frames f (by rw [h1]; simp)).ne_nil
  rw [hpending, List.append_nil] at h1
  -- nobody has a package in hand, so each call has delivered what it took
  have hparts : ∀ i, part i (s.extracted.map fun e => (e.1, deliver np e.2)) =
      part i (s.delivered.map fun e => (e.1, some e.2)) := by
    intro i
    have hi := h.delivers i
    have hhand : inHand (s.pc i) = [] := by rcases hq i with hpc | hpc <;> rw [hpc] <;> rfl
    rw [part_map, part_map, hi, hhand]
    exact List.append_nil _
  have hmsgs : (s.extracted.map fun e => (e.1, deliver np e.2)).map Prod.snd =
      (s.appended.map (messageOf np)).map some := by
    calc (s.extracted.map fun e => (e.1, deliver np e.2)).map Prod.snd
        = (s.extracted.map Prod.snd).map (deliver np) := by simp only [List.map_map]; rfl
      _ = taken.map fun f => deliver np (f.map some) := by rw [h2, List.map_map]; rfl
      _ = taken.map fun f => some (messageOf np f) :=
          List.map_congr_left fun f hf => deliver_frame (h.frames f (by rw [h1]; exact hf))
      _ = (s.appended.map (messageOf np)).map some := by rw [h1, List.map_map]; rfl
  have hperm := (perm_of_part_eq hparts).symm.map Prod.snd
  rw [hmsgs] at hperm
  refine ⟨hempty, ?_⟩
  have := hperm.filterMap id
  simpa [List.filterMap_map, Function.comp_def] using this

/--
**The sections of concurrent calls find whole packets exactly when none comes too late.**

For any number of calls, each with a row of whole packets, and any schedule of
their sections under which the queue stays below 2 GiB: every section of a loop
finds a header and the whole packet behind it, and whenever all calls that have
begun have returned, each packet has been delivered exactly once, if and only if
no call comes to the section of its loop after the queue has been emptied.
-/
theorem sections_whole_iff (np : NetPackage) (input : ι → Call) (schedule : List ι)
    (hroom : AllSteps (step np input) (Room input) init schedule) :
    (AllSteps (step np input) (fun s i => ∀ dqs, s.pc i = .looping dqs → Whole s.cq dqs) init
          schedule ∧
        AllStates (step np input) (fun s => Quiet s → Exactly np s) init schedule) ↔
      AllSteps (step np input) NotDrained init schedule := by
  constructor
  · rintro ⟨h, _⟩
    refine h.mono fun s i hw dqs hpc hnil => ?_
    have hge := (hw dqs hpc).size_ge
    have hle := (hw dqs hpc).size_le
    rw [hnil, List.length_nil] at hle
    omega
  · intro hd
    have hinv := inv_reachable hroom hd
    refine ⟨?_, hinv.mono fun s h => exactly_of_quiet h⟩
    refine (hinv.and_allSteps hd).mono fun s i h dqs hpc => h.1.whole (h.2 dqs hpc) dqs

/-- Two calls with one packet each, one after the other. -/
theorem sections_whole_sequential :
    let input : Bool → Call := fun _ =>
      ⟨[[14, 0, 0, 0, 1, 1, 7, 0, 0, 0, 0, 0, 0, 0]], by decide, by decide, by decide⟩
    let schedule := [true, true, true, false, false, false]
    AllStates (step NetPackage.reference input) (fun s => Quiet s → Exactly .reference s) init
      schedule :=
  ((sections_whole_iff NetPackage.reference _ _ (by decide)).mpr (by decide)).2

/--
Both calls append their packet, and the second takes both. The first comes back to
the lock with a `dqs` of fourteen and finds the queue empty.
-/
theorem sections_whole_overtaken :
    let input : Bool → Call := fun _ =>
      ⟨[[14, 0, 0, 0, 1, 1, 7, 0, 0, 0, 0, 0, 0, 0]], by decide, by decide, by decide⟩
    let schedule := [false, true, true, true, true, true, false]
    ¬ AllSteps (step NetPackage.reference input)
      (fun s i => ∀ dqs, s.pc i = .looping dqs → Whole s.cq dqs) init schedule := by
  intro input schedule h
  have hw := allSteps_iff.mp h [false, true, true, true, true, true] false [] rfl 14 (by decide)
  have hge := hw.size_ge
  have hle := hw.size_le
  have hempty : ([false, true, true, true, true, true].foldl
    (step NetPackage.reference input) init).cq.cq = [] := by decide
  rw [hempty, List.length_nil] at hle
  omega

end NanomsgDemo.Net.ConcurrentParse

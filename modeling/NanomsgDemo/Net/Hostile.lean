import NanomsgDemo.Net.Feeding

/-!
# Arbitrary bytes on the wire

A peer may send anything. What `parse` then does hinges on the header that stands
at each *border*, the place where the loop looks for the next packet: a border is
what `Framing.Cuts` leaves, and the header there is read as soon as fourteen bytes
are in the queue.

The size in it is used without a check from below. So the loop ends, and every
package it takes is a whole packet, exactly as long as no border is followed by a
header that declares fewer than fourteen bytes.
-/

namespace NanomsgDemo.Net

open Framing Runs

/-- A call that returns, having taken at least a header's worth off the queue in each pass. -/
structure Terminates (l : List Byte) (p : Parsed) : Prop where
  /-- No exception, no undefined read, no endless loop. -/
  returned : ∃ code, p.outcome = .returned code
  /-- Each pass that does not `break` removes at least `sizeof(NetHead)` bytes. -/
  removes : ∀ it ∈ p.trace, it.after.cq.length + 14 ≤ it.before.cq.length
  /-- A pass that does `break` leaves a header behind, so it is counted as well. -/
  passes_le : 14 * p.trace.length + p.core.queued.length ≤ l.length

/-- No border is followed by a header that declares fewer bytes than the header has. -/
def CleanBorders (l : List Byte) : Prop :=
  ∀ fs r, Cuts netFormat l fs r → ¬ Malformed netFormat r

/-- No border is followed by a header that declares between `0` and `13` bytes. -/
def NoShortSize (l : List Byte) : Prop :=
  ∀ fs r, Cuts netFormat l fs r → Malformed netFormat r → (NetHead.sizeAt r).toInt < 0

/--
A package that is what it should be: filled from the front of the queue, long
enough for every header field, of a payload length that is that of the rest of it, and
handed on with its header and all of that rest.
-/
def Iteration.WellFormed (np : NetPackage) (it : Iteration) : Prop :=
  ∃ bytes : List Byte, it.package = bytes.map some ∧ it.before.cq = bytes ++ it.after.cq ∧
    14 ≤ bytes.length ∧
    ((NetHead.ofBytes bytes).size - C_NETHEAD_SIZE).toInt = (bytes.length : Int) - 14 ∧
    it.call = some (messageOf np bytes)

theorem cleanBorders_iff_waits {l r : List Byte} {fs : List (List Byte)}
    (hc : Cuts netFormat l fs r) (hr : ¬ Ready netFormat r) :
    CleanBorders l ↔ Waits netFormat r := by
  constructor
  · intro h
    rcases not_ready_iff.mp hr with hw | hm
    · exact hw
    · exact absurd hm (h fs r hc)
  · intro hw gs m hg hm
    -- a malformed border is where the cutting stops
    obtain ⟨_, h2⟩ := hg.unique hm.not_ready hc hr
    exact hw.not_malformed (h2 ▸ hm)

theorem noShortSize_iff {l r : List Byte} {fs : List (List Byte)}
    (hc : Cuts netFormat l fs r) (hr : ¬ Ready netFormat r) :
    NoShortSize l ↔ Waits netFormat r ∨ (NetHead.sizeAt r).toInt < 0 := by
  constructor
  · intro h
    rcases not_ready_iff.mp hr with hw | hm
    · exact Or.inl hw
    · exact Or.inr (h fs r hc hm)
  · intro h gs m hg hm
    obtain ⟨_, h2⟩ := hg.unique hm.not_ready hc hr
    subst h2
    rcases h with hw | hneg
    · exact absurd hm hw.not_malformed
    · exact hneg

/-! ## The passes through the loop -/

theorem wellFormed_of_frame (np : NetPackage) {f : List Byte} (l : List Byte)
    (hf : Frame netFormat f) :
    Iteration.WellFormed np ⟨⟨f ++ l⟩, f.map some, ⟨l⟩, some (messageOf np f)⟩ := by
  obtain ⟨h14, hsize⟩ := frame_iff.mp hf
  refine ⟨f, rfl, rfl, h14, ?_, rfl⟩
  have hs : (NetHead.ofBytes f).size.toInt = f.length := hsize
  have := (NetHead.ofBytes f).size.toInt_lt
  rw [Int32.toInt_sub, hs, toInt_14, Int.bmod_def]
  split <;> omega

theorem passes_wellFormed (np : NetPackage) {l r : List Byte} {fs : List (List Byte)}
    (hc : Cuts netFormat l fs r) : ∀ it ∈ passes np l fs, it.WellFormed np := by
  induction hc with
  | nil => simp [passes]
  | @cons l fs r hready hrest ih =>
      intro it hit
      rw [passes] at hit
      rcases List.mem_cons.mp hit with rfl | hit
      · have h := wellFormed_of_frame np (l.drop (netFormat.declared l).toNat)
          hready.frame
        rw [List.take_append_drop] at h
        rw [hready.length_take]
        exact h
      · rw [hready.length_take] at hit
        exact ih it hit

theorem Iteration.WellFormed.removes {np : NetPackage} {it : Iteration} (h : it.WellFormed np) :
    it.after.cq.length + 14 ≤ it.before.cq.length := by
  obtain ⟨bytes, _, hq, h14, _⟩ := h
  rw [hq, List.length_append]
  omega

theorem passes_length (np : NetPackage) (l : List Byte) (fs : List (List Byte)) :
    (passes np l fs).length = fs.length := by
  induction fs generalizing l with
  | nil => rfl
  | cons f fs ih => simp [passes, ih]

theorem faultyPass_not_wellFormed (np : NetPackage) {r : List Byte} (hm : Malformed netFormat r) :
    ¬ (faultyPass r).WellFormed np := by
  rintro ⟨bytes, hpkg, _, h14, _⟩
  obtain ⟨_, hlt⟩ := malformed_iff.mp hm
  have hlen := congrArg List.length hpkg
  simp only [faultyPass, List.length_map, List.length_take] at hlen
  omega

/-! ## Termination -/

/--
**A call of `parse` terminates exactly on clean borders.**

For every queue and every chunk: the call returns normally, with each pass
removing at least a header's worth of bytes, if and only if no border of the
buffered bytes is followed by a header that declares fewer than fourteen.
-/
theorem feed_terminates_iff (np : NetPackage) (core : SocketCore) (c : Chunk) :
    Terminates (core.queued ++ c.bytes) (core.feed np c) ↔
      CleanBorders (core.queued ++ c.bytes) := by
  obtain ⟨fs, r, hc, hr⟩ := exists_cuts netFormat (core.queued ++ c.bytes)
  rw [cleanBorders_iff_waits hc hr, feed_eq np hc hr]
  constructor
  · intro h
    by_contra hw
    obtain ⟨code, hcode⟩ := h.returned
    exact settled_outcome_ne hw code hcode
  · intro hw
    rw [settled_of_waits hw]
    refine ⟨⟨0, rfl⟩, fun it hit => (passes_wellFormed np hc it hit).removes, ?_⟩
    rw [passes_length]
    exact hc.length

/-- Fourteen zero bytes: the pass removes nothing, and reads outside an empty package. -/
theorem feed_zeros_not_terminates :
    ¬ Terminates (SocketCore.init.queued ++ List.replicate 14 0)
      (SocketCore.init.feed NetPackage.reference
        ⟨List.replicate 14 0, by decide, by decide⟩) := by
  intro h
  exact absurd (h.removes ⟨⟨List.replicate 14 0⟩, [], ⟨List.replicate 14 0⟩, none⟩ (by decide))
    (by decide)

/-! ## Well-formed frames -/

/-- Undefined behaviour does not come without a package that is not well formed. -/
def Feeding.Accounted (np : NetPackage) (s : Feeding) : Prop :=
  .undefined ∈ s.outcomes → ∃ it ∈ s.trace, ¬ it.WellFormed np

theorem Feeding.step_trace_prefix (np : NetPackage) (s : Feeding) (c : Chunk) :
    s.trace <+: (s.step np c).trace := by
  unfold Feeding.step
  split
  · exact List.prefix_refl _
  · exact List.prefix_append _ _

theorem Feeding.accounted_step (np : NetPackage) (s : Feeding) (c : Chunk)
    (h : s.Accounted np) : (s.step np c).Accounted np := by
  intro hu
  by_cases hs : .undefined ∈ s.outcomes
  · obtain ⟨it, hit, hwf⟩ := h hs
    exact ⟨it, (s.step_trace_prefix np c).subset hit, hwf⟩
  · obtain ⟨fs, r, hc, hr⟩ := exists_cuts netFormat (s.core.queued ++ c.bytes)
    unfold Feeding.step at hu ⊢
    simp only [hs, if_false, feed_eq np hc hr] at hu ⊢
    unfold settled at hu ⊢
    by_cases hw : Waits netFormat r
    · simp [hw, hs] at hu
    · by_cases hneg : (NetHead.sizeAt r).toInt < 0
      · simp [hw, hneg, hs] at hu
      · -- the pass that reads outside its package has just been recorded
        have hm := (not_ready_iff.mp hr).resolve_left hw
        exact ⟨faultyPass r, by simp [hw, hneg], faultyPass_not_wellFormed np hm⟩

/-- A step keeps all packages well formed exactly when no border declares `0` to `13` bytes. -/
theorem Feeding.step_wellFormed_iff (np : NetPackage) (s : Feeding) (c : Chunk)
    (ha : s.Accounted np) (hs : ∀ it ∈ s.trace, it.WellFormed np) :
    (∀ it ∈ (s.step np c).trace, it.WellFormed np) ↔ NoShortSize (s.core.queued ++ c.bytes) := by
  have hdef : Outcome.undefined ∉ s.outcomes := fun h => by
    obtain ⟨it, hit, hwf⟩ := ha h
    exact hwf (hs it hit)
  obtain ⟨fs, r, hc, hr⟩ := exists_cuts netFormat (s.core.queued ++ c.bytes)
  rw [noShortSize_iff hc hr]
  have htrace : (s.step np c).trace =
      s.trace ++ (settled np (s.core.queued ++ c.bytes) fs r).trace := by
    unfold Feeding.step
    simp only [hdef, if_false, feed_eq np hc hr]
  constructor
  · intro hwf
    by_contra hcon
    obtain ⟨hw, hneg⟩ := not_or.mp hcon
    have hm := (not_ready_iff.mp hr).resolve_left hw
    -- the last pass of this call takes the faulty package
    refine faultyPass_not_wellFormed np hm (hwf _ ?_)
    rw [htrace]
    simp [settled, hw, hneg]
  · intro h it hit
    rw [htrace] at hit
    rcases List.mem_append.mp hit with hit | hit
    · exact hs it hit
    · refine passes_wellFormed np hc it ?_
      rcases h with hw | hneg
      · rwa [settled_of_waits hw] at hit
      · -- the call ends by waiting or by throwing: no further package in either case
        rw [settled, if_pos hneg] at hit
        split at hit <;> exact hit

/--
**Every frame is well formed exactly when no border declares `0` to `13` bytes.**

For every stream and every segmentation: each package that any of the calls takes
off the queue is completely filled from it, holds every header field that is
read, and is handed on with its header and all that follows this in it, the payload
length being that of what follows, if and only if at no call a border of the buffered
bytes is followed by a header that declares a size from `0` to `13`. A negative size
takes no package: `new[]` throws first.
-/
theorem frames_wellFormed_iff (np : NetPackage) (chunks : List Chunk) :
    (∀ it ∈ (chunks.foldl (Feeding.step np) Feeding.init).trace, it.WellFormed np) ↔
      AllSteps (Feeding.step np) (fun s c => NoShortSize (s.core.queued ++ c.bytes))
        Feeding.init chunks := by
  exact final_iff_allSteps (I := Feeding.Accounted np)
    (P := fun s => ∀ it ∈ s.trace, it.WellFormed np)
    (fun h => absurd h List.not_mem_nil) (fun _ h => absurd h List.not_mem_nil)
    (Feeding.accounted_step np)
    (fun s c _ h it hit => h it ((Feeding.step_trace_prefix np s c).subset hit))
    (Feeding.step_wellFormed_iff np) chunks

/-- A header that declares one byte: the package has one cell, and the header is read out of it. -/
theorem frames_size_one_not_wellFormed :
    ¬ ∀ it ∈ ([⟨1 :: List.replicate 13 0, by decide, by decide⟩].foldl
        (Feeding.step NetPackage.reference) Feeding.init).trace,
      it.WellFormed NetPackage.reference := by
  intro h
  obtain ⟨bytes, hpkg, _, h14, _⟩ := h
    ⟨⟨1 :: List.replicate 13 0⟩, [some 1], ⟨List.replicate 13 0⟩, none⟩ (by decide)
  have hlen := congrArg List.length hpkg
  simp at hlen
  omega

end NanomsgDemo.Net

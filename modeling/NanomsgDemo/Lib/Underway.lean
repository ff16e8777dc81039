import NanomsgDemo.Lib.Framing

/-!
# Frames on their way

One direction of a connection: a writer appends frames to a stream, and a reader that
takes the stream piece by piece has cut the first of them off. `Underway` says where the
bytes of the others are: what the reader holds back, and then what is still to come.

It is kept by a write and by a read of any size, and when nothing is to come the reader
has cut every frame off.
-/

namespace Framing

variable {α : Type*} {F : Format α}

/-- Of the frames `fs` the first `k` have been cut off, and the bytes of the others are there. -/
structure Underway (fs : List (List α)) (k : Nat) (held wire : List α) : Prop where
  le : k ≤ fs.length
  bytes : held ++ wire = (fs.drop k).flatten
  holds : Held held (fs.drop k)

theorem Held.append {r f : List α} {rest : List (List α)} (h : Held r rest) (hf : f ≠ []) :
    Held r (rest ++ [f]) := by
  cases rest with
  | nil =>
      have hnil : r = [] := h
      subst hnil
      exact ⟨f, hf, rfl⟩
  | cons g rest => exact h

theorem underway_nil : Underway ([] : List (List α)) 0 [] [] := ⟨Nat.le_refl 0, rfl, rfl⟩

namespace Underway

variable {fs : List (List α)} {k : Nat} {held wire : List α}

/-- One more frame is written. -/
theorem write (h : Underway fs k held wire) {f : List α} (hf : f ≠ []) :
    Underway (fs ++ [f]) k held (wire ++ f) where
  le := by
    have := h.le
    rw [List.length_append]
    omega
  bytes := by
    rw [List.drop_append_of_le_length h.le, List.flatten_append, ← h.bytes,
      List.append_assoc, List.flatten_singleton]
  holds := by
    rw [List.drop_append_of_le_length h.le]
    exact h.holds.append hf

theorem write_all (h : Underway fs k held wire) {gs : List (List α)} (hgs : ∀ g ∈ gs, g ≠ []) :
    Underway (fs ++ gs) k held (wire ++ gs.flatten) := by
  induction gs generalizing fs wire with
  | nil =>
      rw [List.append_nil, List.flatten_nil, List.append_nil]
      exact h
  | cons g gs ih =>
      have hstep := ih (h.write (hgs g List.mem_cons_self)) fun g hg =>
        hgs g (List.mem_cons_of_mem _ hg)
      rw [List.append_assoc, List.append_assoc] at hstep
      exact hstep

/-- A piece of the stream is read: the next frames are cut off, and no others. -/
theorem read {piece rest : List α} (h : Underway fs k held (piece ++ rest))
    (hfs : ∀ f ∈ fs, Frame F f) (hx : Exact F (held ++ piece).length) :
    ∃ done r, Cuts F (held ++ piece) done r ∧ Waits F r ∧
      Underway fs (k + done.length) r rest ∧
      fs.take (k + done.length) = fs.take k ++ done := by
  have hdrop : ∀ f ∈ fs.drop k, Frame F f := fun f hf => hfs f (List.mem_of_mem_drop hf)
  have hflat : (fs.drop k).flatten = (held ++ piece) ++ rest := by
    rw [← h.bytes, List.append_assoc]
  obtain ⟨done, left, r, hsplit, hcuts, hheld⟩ := exists_cuts_held hdrop hflat hx
  have hleft : fs.drop (k + done.length) = left := by
    rw [← List.drop_drop, hsplit, List.drop_left]
  have hlen : (fs.drop k).length = done.length + left.length := by
    rw [hsplit, List.length_append]
  rw [List.length_drop] at hlen
  have hle := h.le
  refine ⟨done, r, hcuts, hheld.waits fun f hf => hdrop f (by
    rw [hsplit]
    exact List.mem_append_right _ hf), ⟨by omega, ?_, ?_⟩, ?_⟩
  · have hall := hcuts.flatten
    rw [hsplit, List.flatten_append, ← hall, List.append_assoc] at hflat
    rw [hleft]
    exact (List.append_cancel_left hflat).symm
  · rw [hleft]
    exact hheld
  · rw [List.take_add, hsplit, List.take_left]

/-- Nothing is to come: every frame has been cut off, and nothing is held back. -/
theorem all (h : Underway fs k held []) : k = fs.length ∧ held = [] := by
  have hbytes := h.bytes
  rw [List.append_nil] at hbytes
  have hnil := h.holds.eq_nil hbytes.symm
  have hle := h.le
  have hge := List.drop_eq_nil_iff.mp hnil
  refine ⟨by omega, ?_⟩
  rw [hbytes, hnil]
  rfl

end Underway

end Framing

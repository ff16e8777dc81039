import Mathlib.Data.List.Basic

/-!
# Length-prefixed framing

A stream of items is a row of *frames*. The first `header` items of a frame
declare, through `declared`, how long the whole frame is, and a reader that
buffers the stream takes frames off the front of its buffer as they fill up.

The reader counts its buffer with `seen`, which may fall short of the length: a
counter of fixed width wraps around. Nothing below needs it to be exact except
the results about streams that really are rows of frames, which say so.

* `Cuts l fs r`: taking frames off `l` can yield `fs` and leave `r`.
* `Waits r`, `Malformed r`: the two ways in which no further frame can be taken.
* `Held r rest`: `r` is what a reader holds back when `rest` is still to come.
-/

namespace Framing

/-- How frames announce their own length, and how a reader counts its buffer. -/
structure Format (α : Type*) where
  /-- Items of a header. -/
  header : Nat
  /-- The frame length declared by the header at the front of a buffer. -/
  declared : List α → Int
  /-- What the reader takes the length of a buffer of `n` items to be. -/
  seen : Nat → Int
  header_pos : 0 < header
  /-- Only the header is read. -/
  declared_append : ∀ l r, header ≤ l.length → declared (l ++ r) = declared l
  /-- The reader never counts more items than there are. -/
  seen_le : ∀ n : Nat, seen n ≤ n

variable {α : Type*} (F : Format α)

/-- A whole frame: it holds its header and is as long as its header says. -/
def Frame (f : List α) : Prop := F.header ≤ f.length ∧ F.declared f = f.length

/-- A frame can be taken off the front of the buffer. -/
def Ready (l : List α) : Prop := F.header ≤ F.declared l ∧ F.declared l ≤ F.seen l.length

/-- The reader has to wait for more items. -/
def Waits (l : List α) : Prop := F.seen l.length < F.header ∨ F.seen l.length < F.declared l

/-- The header is there, and declares a frame that could not even hold the header. -/
def Malformed (l : List α) : Prop := F.header ≤ F.seen l.length ∧ F.declared l < F.header

/-- `Cuts F l fs r`: taking frames off the front of `l` yields `fs` and leaves `r`. -/
inductive Cuts : List α → List (List α) → List α → Prop where
  | nil {l : List α} : Cuts l [] l
  | cons {l : List α} {fs : List (List α)} {r : List α} :
      Ready F l → Cuts (l.drop (F.declared l).toNat) fs r →
      Cuts l (l.take (F.declared l).toNat :: fs) r

/-- What is held back when `rest` is still to come: a proper initial part of its first frame. -/
def Held (r : List α) : List (List α) → Prop
  | [] => r = []
  | f :: _ => ∃ t, t ≠ [] ∧ f = r ++ t

/-- Buffers of at most `n` items are counted exactly. -/
def Exact (n : Nat) : Prop := ∀ m ≤ n, F.seen m = m

variable {F}

/-! ## Three states of a buffer -/

theorem not_ready_iff {l : List α} : ¬ Ready F l ↔ Waits F l ∨ Malformed F l := by
  unfold Ready Waits Malformed; omega

theorem Waits.not_ready {l : List α} (h : Waits F l) : ¬ Ready F l := not_ready_iff.mpr (Or.inl h)

theorem Malformed.not_ready {l : List α} (h : Malformed F l) : ¬ Ready F l :=
  not_ready_iff.mpr (Or.inr h)

theorem Waits.not_malformed {l : List α} (h : Waits F l) : ¬ Malformed F l := by
  unfold Waits at h; unfold Malformed; omega

theorem Ready.length_le {l : List α} (h : Ready F l) : (F.declared l).toNat ≤ l.length := by
  have := F.seen_le l.length
  have := h.2
  omega

theorem Ready.header_le {l : List α} (h : Ready F l) : F.header ≤ (F.declared l).toNat := by
  have := h.1
  omega

theorem Ready.length_take {l : List α} (h : Ready F l) :
    (l.take (F.declared l).toNat).length = (F.declared l).toNat := by
  rw [List.length_take]; exact Nat.min_eq_left h.length_le

/-- What a ready buffer yields is a whole frame. -/
theorem Ready.frame {l : List α} (h : Ready F l) : Frame F (l.take (F.declared l).toNat) := by
  have hlen := h.length_take
  have hdec := F.declared_append (l.take (F.declared l).toNat) (l.drop (F.declared l).toNat)
    (by rw [hlen]; exact h.header_le)
  rw [List.take_append_drop] at hdec
  refine ⟨by rw [hlen]; exact h.header_le, ?_⟩
  rw [← hdec, hlen]
  have := h.1
  omega

theorem Frame.ready_append {f r : List α} (h : Frame F f) (hx : Exact F (f ++ r).length) :
    Ready F (f ++ r) := by
  have hseen := hx _ (Nat.le_refl _)
  have hdec := F.declared_append f r h.1
  have := h.2
  have := h.1
  rw [List.length_append] at hseen
  unfold Ready
  rw [hdec, List.length_append]
  omega

/-- A proper initial part of a frame keeps the reader waiting. -/
theorem Frame.waits_of_append {r t : List α} (h : Frame F (r ++ t)) (ht : t ≠ []) :
    Waits F r := by
  have hseen := F.seen_le r.length
  have htl : 0 < t.length := List.length_pos_iff.mpr ht
  rcases Nat.lt_or_ge r.length F.header with hlt | hge
  · left; omega
  · -- the header is in `r` already, and declares the whole of `r ++ t`
    right
    have hdec := F.declared_append r t hge
    have := h.2
    rw [hdec, List.length_append] at this
    omega

/-- What comes after an incomplete frame makes it longer: the frame ends beyond it. -/
theorem Waits.lt_declared {l r : List α} (h : Waits F l) (hx : F.seen l.length = l.length)
    (hready : Ready F (l ++ r)) : l.length < (F.declared (l ++ r)).toNat := by
  have hheader := hready.header_le
  rcases Nat.lt_or_ge l.length F.header with hlt | hge
  · omega
  · -- the header in `l` still declares the same, and `l` was too short for it
    have hdec := F.declared_append l r hge
    unfold Waits at h
    omega

theorem Frame.ne_nil {f : List α} (h : Frame F f) : f ≠ [] := by
  have := h.1
  have := F.header_pos
  exact List.length_pos_iff.mp (by omega)

/-! ## Cutting a buffer -/

/-- Nothing is lost: the frames and the rest make up the buffer. -/
theorem Cuts.flatten {l r : List α} {fs : List (List α)} (h : Cuts F l fs r) :
    fs.flatten ++ r = l := by
  induction h with
  | nil => simp
  | cons _ _ ih => rw [List.flatten_cons, List.append_assoc, ih, List.take_append_drop]

theorem Cuts.frame {l r : List α} {fs : List (List α)} (h : Cuts F l fs r) :
    ∀ f ∈ fs, Frame F f := by
  induction h with
  | nil => simp
  | cons hr _ ih =>
      intro f hf
      rcases List.mem_cons.mp hf with rfl | hf
      · exact hr.frame
      · exact ih f hf

/-- Each frame takes at least a header off the buffer. -/
theorem Cuts.length {l r : List α} {fs : List (List α)} (h : Cuts F l fs r) :
    F.header * fs.length + r.length ≤ l.length := by
  induction h with
  | nil => simp
  | @cons l fs r hr _ ih =>
      rw [List.length_drop] at ih
      have := hr.header_le
      have := hr.length_le
      rw [List.length_cons, Nat.mul_succ]
      omega

/-- Every buffer can be cut until nothing more is ready. -/
theorem exists_cuts (F : Format α) (l : List α) : ∃ fs r, Cuts F l fs r ∧ ¬ Ready F r := by
  induction hn : l.length using Nat.strongRecOn generalizing l with
  | ind n ih =>
    by_cases hr : Ready F l
    · have hlt : (l.drop (F.declared l).toNat).length < n := by
        rw [List.length_drop]
        have := hr.header_le
        have := hr.length_le
        have := F.header_pos
        omega
      obtain ⟨fs, r, hc, hs⟩ := ih _ hlt _ rfl
      exact ⟨_, r, Cuts.cons hr hc, hs⟩
    · exact ⟨[], l, Cuts.nil, hr⟩

/-- Cutting until nothing more is ready has one outcome. -/
theorem Cuts.unique {l r r' : List α} {fs fs' : List (List α)} (h : Cuts F l fs r)
    (hr : ¬ Ready F r) (h' : Cuts F l fs' r') (hr' : ¬ Ready F r') : fs = fs' ∧ r = r' := by
  induction h generalizing fs' with
  | nil =>
      cases h' with
      | nil => exact ⟨rfl, rfl⟩
      | cons hl _ => exact absurd hl hr
  | cons hl _ ih =>
      cases h' with
      | nil => exact absurd hl hr'
      | cons _ hc =>
          obtain ⟨h1, h2⟩ := ih hr hc
          exact ⟨by rw [h1], h2⟩

/-- Whoever stops earlier has the first of the frames. -/
theorem Cuts.isPrefix {l r r' : List α} {fs fs' : List (List α)} (h : Cuts F l fs r)
    (hr : ¬ Ready F r) (h' : Cuts F l fs' r') : fs' <+: fs := by
  induction h' generalizing fs with
  | nil => exact List.nil_prefix
  | cons hl _ ih =>
      cases h with
      | nil => exact absurd hl hr
      | cons _ hc => exact (List.prefix_cons_inj _).mpr (ih hc)

/-- `f` is among the frames that can be taken off `l`. -/
def Completed (F : Format α) (l f : List α) : Prop := ∃ fs r, Cuts F l fs r ∧ f ∈ fs

theorem Cuts.completed_iff {l r : List α} {fs : List (List α)} (h : Cuts F l fs r)
    (hr : ¬ Ready F r) (f : List α) : Completed F l f ↔ f ∈ fs := by
  constructor
  · rintro ⟨fs', r', h', hf⟩
    exact (h.isPrefix hr h').subset hf
  · intro hf
    exact ⟨fs, r, h, hf⟩

/-- A row of frames is cut into exactly these frames. -/
theorem cuts_flatten_append {fs : List (List α)} {r : List α} (hf : ∀ f ∈ fs, Frame F f)
    (hx : Exact F (fs.flatten ++ r).length) : Cuts F (fs.flatten ++ r) fs r := by
  induction fs with
  | nil => exact Cuts.nil
  | cons f fs ih =>
      have hfr : Frame F f := hf f (List.mem_cons_self ..)
      rw [List.flatten_cons, List.append_assoc] at hx ⊢
      have hready := hfr.ready_append hx
      have hn : (F.declared (f ++ (fs.flatten ++ r))).toNat = f.length := by
        rw [F.declared_append f _ hfr.1, hfr.2, Int.toNat_natCast]
      have hrest : Exact F (fs.flatten ++ r).length := fun m hm =>
        hx m (Nat.le_trans hm (by simp only [List.length_append]; omega))
      have htail :
          Cuts F ((f ++ (fs.flatten ++ r)).drop (F.declared (f ++ (fs.flatten ++ r))).toNat)
            fs r := by
        rw [hn, List.drop_left]
        exact ih (fun g hg => hf g (List.mem_cons_of_mem _ hg)) hrest
      have hc := Cuts.cons hready htail
      rwa [hn, List.take_left] at hc

/-! ## A row of frames arriving piece by piece -/

theorem Held.waits {r : List α} {rest : List (List α)} (hf : ∀ f ∈ rest, Frame F f)
    (h : Held r rest) : Waits F r := by
  cases rest with
  | nil =>
      have hnil : r = [] := h
      subst hnil
      have h0 := F.seen_le 0
      have := F.header_pos
      left
      rw [List.length_nil]
      omega
  | cons f rest =>
      obtain ⟨t, ht, rfl⟩ := h
      exact (hf _ (List.mem_cons_self ..)).waits_of_append ht

theorem Held.eq_nil {r : List α} {rest : List (List α)} (h : Held r rest)
    (hflat : rest.flatten = r) : rest = [] := by
  cases rest with
  | nil => rfl
  | cons f fs =>
      obtain ⟨t, ht, hf⟩ := h
      rw [List.flatten_cons, hf, List.append_assoc] at hflat
      exact absurd (List.append_eq_nil_iff.mp (List.append_right_eq_self.mp hflat)).1 ht

/-- Where an initial part of a row of non-empty blocks ends. -/
theorem exists_held {fs : List (List α)} (hne : ∀ f ∈ fs, f ≠ []) :
    ∀ {p q : List α}, fs.flatten = p ++ q →
      ∃ done rest r, fs = done ++ rest ∧ p = done.flatten ++ r ∧ Held r rest := by
  induction fs with
  | nil =>
      intro p q h
      refine ⟨[], [], p, rfl, by simp, ?_⟩
      exact (List.append_eq_nil_iff.mp h.symm).1
  | cons f fs ih =>
      intro p q h
      rw [List.flatten_cons] at h
      rcases List.append_eq_append_iff.mp h with ⟨p', hp, hrest⟩ | ⟨t, hf, _⟩
      · -- the piece reaches past the first block
        obtain ⟨done, rest, r, h1, h2, h3⟩ :=
          ih (fun g hg => hne g (List.mem_cons_of_mem _ hg)) hrest
        exact ⟨f :: done, rest, r, by rw [h1, List.cons_append],
          by rw [hp, h2, List.flatten_cons, List.append_assoc], h3⟩
      · by_cases ht : t = []
        · -- it ends exactly at the border behind the first block
          subst ht
          rw [List.append_nil] at hf
          refine ⟨[f], fs, [], rfl, by simp [hf], ?_⟩
          cases fs with
          | nil => rfl
          | cons g gs => exact ⟨g, hne g (by simp), rfl⟩
        · exact ⟨[], f :: fs, p, rfl, by simp, t, ht, hf⟩

/--
**One more piece.**

A reader that takes a piece of a row of frames yields whole frames of that row,
in order, and holds back exactly the frame the piece ends in.
-/
theorem exists_cuts_held {fs : List (List α)} (hf : ∀ f ∈ fs, Frame F f) {p q : List α}
    (h : fs.flatten = p ++ q) (hx : Exact F p.length) :
    ∃ done rest r, fs = done ++ rest ∧ Cuts F p done r ∧ Held r rest := by
  obtain ⟨done, rest, r, h1, h2, h3⟩ := exists_held (fun f hm => (hf f hm).ne_nil) h
  refine ⟨done, rest, r, h1, ?_, h3⟩
  rw [h2] at hx ⊢
  exact cuts_flatten_append (fun f hm => hf f (by rw [h1]; exact List.mem_append_left _ hm)) hx

end Framing

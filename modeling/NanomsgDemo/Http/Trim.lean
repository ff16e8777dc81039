import Mathlib.Data.List.DropRight
import NanomsgDemo.Lib.Buffers
import NanomsgDemo.Net.CString

/-!
# Trimming

`trim`, `trim_l` and `trim_r` of `libutils/lw_util.cpp`. A pointer into `src` is an
index that may leave it; what is read outside of `src` or written outside of `dest` is
undefined, and then there is no result.

The scan from the front ends at the NUL if not before. The scan from the end has
nothing to end at, so a string without a character other than spaces sends it to
`src[-1]`.
-/

namespace NanomsgDemo.Http

open Net (Byte CString chr)
open Buffers

/-- What the scans skip. -/
def isBlank (c : Byte) : Bool := c = chr ' '

/-- The bytes of `src`, with its NUL. -/
def terminated (src : CString) : List Byte := src.bytes ++ [0]

theorem lt_of_load {buf : List Byte} {i : Int} {c : Byte} (h : load buf i = some c) :
    0 ≤ i ∧ i < buf.length := by
  unfold load at h
  split at h
  · obtain ⟨hlt, _⟩ := List.getElem?_eq_some_iff.mp h
    omega
  · cases h

/-- `while (*ps == ' ') { ++ps; }` -/
def skipForward (src : CString) (ps : Int) : Option Int :=
  match _ : load (terminated src) ps with
  | none => none
  | some c => if isBlank c then skipForward src (ps + 1) else some ps
termination_by ((terminated src).length - ps).toNat
decreasing_by
  have := lt_of_load ‹_›
  omega

/-- `while (*pe == ' ') { --pe; }` -/
def skipBackward (src : CString) (pe : Int) : Option Int :=
  match _ : load (terminated src) pe with
  | none => none
  | some c => if isBlank c then skipBackward src (pe - 1) else some pe
termination_by (pe + 1).toNat
decreasing_by
  have := lt_of_load ‹_›
  omega

/-- `while (ps <= pe) { *p++ = *ps++; } *p = '\0';` -/
def copy (src : CString) (dest : List Byte) (p ps pe : Int) : Option (List Byte) :=
  if ps ≤ pe then
    (load (terminated src) ps).bind fun c =>
      (store dest p c).bind fun dest' => copy src dest' (p + 1) (ps + 1) pe
  else store dest p 0
termination_by (pe + 1 - ps).toNat
decreasing_by omega

/-- `trim`. -/
def trim (src : CString) (dest : List Byte) : Option (List Byte) := do
  let ps ← skipForward src 0
  let pe ← skipBackward src (src.bytes.length - 1)
  copy src dest 0 ps pe

/-- `trim_l`. -/
def trimL (src : CString) (dest : List Byte) : Option (List Byte) := do
  let ps ← skipForward src 0
  copy src dest 0 ps (src.bytes.length - 1)

/-- `trim_r`. -/
def trimR (src : CString) (dest : List Byte) : Option (List Byte) := do
  let pe ← skipBackward src (src.bytes.length - 1)
  copy src dest 0 0 pe

/-! ## The loops -/

section Loops

variable {src : CString} {dest pre blanks mid done old rest post : List Byte} {b d : Byte}
  {p ps pe : Int}

theorem skipForward_step (src : CString) (ps : Int) :
    skipForward src ps = (load (terminated src) ps).bind fun c =>
      if isBlank c then skipForward src (ps + 1) else some ps := by
  rw [skipForward]
  split
  · rename_i h
    rw [h, Option.bind_none]
  · rename_i h
    rw [h, Option.bind_some]

theorem skipForward_blank (h : load (terminated src) ps = some d) (hd : isBlank d = true) :
    skipForward src ps = skipForward src (ps + 1) := by
  rw [skipForward_step, h, Option.bind_some, if_pos hd]

theorem skipForward_stop (h : load (terminated src) ps = some d) (hd : isBlank d = false) :
    skipForward src ps = some ps := by
  rw [skipForward_step, h, Option.bind_some, if_neg (by simp [hd])]

theorem skipBackward_step (src : CString) (pe : Int) :
    skipBackward src pe = (load (terminated src) pe).bind fun c =>
      if isBlank c then skipBackward src (pe - 1) else some pe := by
  rw [skipBackward]
  split
  · rename_i h
    rw [h, Option.bind_none]
  · rename_i h
    rw [h, Option.bind_some]

theorem skipBackward_blank (h : load (terminated src) pe = some d) (hd : isBlank d = true) :
    skipBackward src pe = skipBackward src (pe - 1) := by
  rw [skipBackward_step, h, Option.bind_some, if_pos hd]

theorem skipBackward_stop (h : load (terminated src) pe = some d) (hd : isBlank d = false) :
    skipBackward src pe = some pe := by
  rw [skipBackward_step, h, Option.bind_some, if_neg (by simp [hd])]

theorem skipBackward_outside (h : load (terminated src) pe = none) :
    skipBackward src pe = none := by
  rw [skipBackward_step, h, Option.bind_none]

/-- The scan from the front stops at the first character that is no space, or at the NUL. -/
theorem skipForward_eq (h : src.bytes = pre ++ blanks ++ rest)
    (hblank : ∀ c ∈ blanks, isBlank c = true) (hrest : ∀ c ∈ rest.head?, isBlank c = false) :
    skipForward src pre.length = some (pre.length + blanks.length : Nat) := by
  induction blanks generalizing pre with
  | nil =>
      cases rest with
      | nil =>
          have hread : load (terminated src) pre.length = some 0 := by
            rw [terminated, h]
            simp
          exact skipForward_stop hread (by decide)
      | cons d rest =>
          have hread : load (terminated src) pre.length = some d := by
            rw [terminated, h]
            simp
          exact skipForward_stop hread (hrest d rfl)
  | cons c blanks ih =>
      obtain ⟨hc, hblanks⟩ := List.forall_mem_cons.mp hblank
      have hread : load (terminated src) pre.length = some c := by
        rw [terminated, h]
        simp
      have hnext : skipForward src (pre ++ [c]).length =
          some ((pre ++ [c]).length + blanks.length : Nat) := ih (by rw [h]; simp) hblanks
      have hlen : ((pre ++ [c]).length : Int) = pre.length + 1 := by simp
      rw [hlen] at hnext
      rw [skipForward_blank hread hc, hnext]
      congr 2
      simp
      omega

/-- The scan from the end stops at the last character that is no space. -/
theorem skipBackward_eq (h : src.bytes = pre ++ d :: (blanks ++ post)) (hd : isBlank d = false)
    (hblank : ∀ c ∈ blanks, isBlank c = true) :
    skipBackward src (pre.length + blanks.length : Nat) = some pre.length := by
  induction blanks using List.reverseRecOn generalizing post with
  | nil =>
      have hread : load (terminated src) pre.length = some d := by
        rw [terminated, h]
        simp
      exact skipBackward_stop hread hd
  | append_singleton blanks c ih =>
      have hc : isBlank c = true := hblank c (by simp)
      have hread : load (terminated src) (pre.length + (blanks ++ [c]).length : Nat) = some c := by
        have hpos : pre.length + (blanks ++ [c]).length = (pre ++ d :: blanks).length := by
          simp
        have hsplit : terminated src = (pre ++ d :: blanks) ++ c :: (post ++ [0]) := by
          rw [terminated, h]
          simp
        rw [hpos, hsplit]
        exact load_append
      have hsrc : src.bytes = pre ++ d :: (blanks ++ c :: post) := by
        rw [h]
        simp
      have hprev := ih hsrc fun c hc => hblank c (by simp [hc])
      rw [skipBackward_blank hread hc, ← hprev]
      congr 1
      simp
      omega

/-- Where there is none it leaves the string. -/
theorem skipBackward_none (h : src.bytes = blanks ++ post)
    (hblank : ∀ c ∈ blanks, isBlank c = true) :
    skipBackward src (blanks.length - 1) = none := by
  induction blanks using List.reverseRecOn generalizing post with
  | nil => exact skipBackward_outside (load_neg (by simp))
  | append_singleton blanks c ih =>
      have hc : isBlank c = true := hblank c (by simp)
      have hread : load (terminated src) blanks.length = some c := by
        rw [terminated, h]
        simp
      have hpos : ((blanks ++ [c]).length : Int) - 1 = blanks.length := by simp
      rw [hpos, skipBackward_blank hread hc]
      have hsrc : src.bytes = blanks ++ c :: post := by
        rw [h]
        simp
      exact ih hsrc fun c hc => hblank c (by simp [hc])

/-- The copy from `ps` up to `pe`, with its NUL. -/
theorem copy_eq (h : terminated src = pre ++ mid ++ post) (hold : old.length = mid.length) :
    copy src (done ++ old ++ b :: rest) done.length pre.length (pre.length + mid.length - 1) =
      some (done ++ mid ++ 0 :: rest) := by
  induction mid generalizing pre done old with
  | nil =>
      obtain rfl := List.length_eq_zero_iff.mp hold
      rw [copy, if_neg (by simp only [List.length_nil]; omega), List.append_nil]
      exact store_append
  | cons c mid ih =>
      obtain ⟨d, old, rfl⟩ := List.exists_cons_of_length_eq_add_one hold
      have hload : load (terminated src) pre.length = some c := by
        rw [h, List.append_assoc, List.cons_append]
        exact load_append
      have hstore : store (done ++ (d :: old) ++ b :: rest) done.length c =
          some ((done ++ [c]) ++ old ++ b :: rest) := by
        rw [List.append_assoc, List.cons_append, store_append]
        simp
      have hnext : copy src ((done ++ [c]) ++ old ++ b :: rest) (done ++ [c]).length
          (pre ++ [c]).length ((pre ++ [c]).length + mid.length - 1) =
          some ((done ++ [c]) ++ mid ++ 0 :: rest) :=
        ih (by rw [h]; simp) (by simpa using hold)
      have hlen : ∀ l : List Byte, ((l ++ [c]).length : Int) = l.length + 1 := by simp
      rw [hlen, hlen] at hnext
      have hend : (pre.length : Int) + (c :: mid).length - 1 = pre.length + 1 + mid.length - 1 := by
        simp
        omega
      rw [copy, if_pos (by simp only [List.length_cons]; omega), hload, Option.bind_some, hstore,
        Option.bind_some, hend, hnext]
      simp

end Loops

/-! ## The results -/

/-- `dest` holds the string `s` in the end. -/
def Yields (result : Option (List Byte)) (s : List Byte) : Prop :=
  result.map CString.ofBuffer = some (CString.ofBuffer s)

section Results

variable {src : CString} {dest pre mid post : List Byte} {d : Byte}

/-- A part of `src` fits into `dest`, and is the string there. -/
theorem copy_yields (h : src.bytes = pre ++ mid ++ post)
    (hdest : dest.length = src.bytes.length + 1) :
    Yields (copy src dest 0 pre.length (pre.length + mid.length - 1)) mid := by
  have hlen : dest.length = pre.length + mid.length + post.length + 1 := by
    rw [hdest, h]
    simp [Nat.add_assoc]
  obtain ⟨b, rest, hrest⟩ : ∃ b rest, dest.drop mid.length = b :: rest := by
    apply List.exists_cons_of_ne_nil
    intro hnil
    have := List.drop_eq_nil_iff.mp hnil
    omega
  have hsplit : dest = [] ++ dest.take mid.length ++ b :: rest := by
    rw [List.nil_append, ← hrest, List.take_append_drop]
  have hcopy : copy src ([] ++ dest.take mid.length ++ b :: rest) ([] : List Byte).length
      pre.length (pre.length + mid.length - 1) = some ([] ++ mid ++ 0 :: rest) := by
    refine copy_eq (?_ : terminated src = pre ++ mid ++ (post ++ [0])) ?_
    · rw [terminated, h]
      simp
    · rw [List.length_take]
      omega
  rw [← hsplit] at hcopy
  have hplain : ∀ c ∈ mid, c ≠ 0 := fun c hc => src.nonzero c (by rw [h]; simp [hc])
  rw [Yields, show ((0 : Int)) = (([] : List Byte).length : Int) from rfl, hcopy, Option.map_some]
  congr 1
  apply CString.ext_bytes
  rw [CString.bytes_ofBuffer hplain]
  show ([] ++ mid ++ 0 :: rest).takeWhile (· ≠ 0) = mid
  rw [List.nil_append, List.takeWhile_append_of_pos (fun c hc => decide_eq_true (hplain c hc)),
    List.takeWhile_cons_of_neg (by simp), List.append_nil]

/-- The scan from the front stops behind the leading spaces. -/
theorem skipForward_front (src : CString) :
    skipForward src 0 = some ((src.bytes.takeWhile isBlank).length : Int) := by
  have hhead : ∀ c ∈ (src.bytes.dropWhile isBlank).head?, isBlank c = false := by
    intro c hc
    have hnot := List.head?_dropWhile_not isBlank src.bytes
    rw [Option.mem_def.mp hc] at hnot
    simpa using hnot
  have hskip : skipForward src ([] : List Byte).length =
      some (([] : List Byte).length + (src.bytes.takeWhile isBlank).length : Nat) :=
    skipForward_eq (by rw [List.nil_append, List.takeWhile_append_dropWhile])
      (fun c hc => List.mem_takeWhile_imp hc) hhead
  simpa using hskip

/-- `trim_l` takes the spaces off the front, whatever the string is. -/
theorem trimL_yields (hdest : dest.length = src.bytes.length + 1) :
    Yields (trimL src dest) (src.bytes.dropWhile isBlank) := by
  have hsplit : src.bytes =
      src.bytes.takeWhile isBlank ++ src.bytes.dropWhile isBlank ++ [] := by
    rw [List.append_nil, List.takeWhile_append_dropWhile]
  have hlen := congrArg List.length hsplit
  simp only [List.length_append, List.length_nil] at hlen
  have hend : (src.bytes.length : Int) - 1 =
      (src.bytes.takeWhile isBlank).length + (src.bytes.dropWhile isBlank).length - 1 := by
    omega
  rw [trimL, skipForward_front, hend]
  exact copy_yields hsplit hdest

/-- A string with a character to keep ends with one, but for spaces. -/
theorem rdropWhile_split {s : List Byte} (h : ∃ c ∈ s, isBlank c = false) :
    ∃ pre d blanks, s = pre ++ d :: blanks ∧ s.rdropWhile isBlank = pre ++ [d] ∧
      isBlank d = false ∧ ∀ c ∈ blanks, isBlank c = true := by
  have hne : s.rdropWhile isBlank ≠ [] := by
    rw [Ne, List.rdropWhile_eq_nil_iff]
    intro hall
    obtain ⟨c, hc, hkeep⟩ := h
    rw [hall c hc] at hkeep
    cases hkeep
  have hlast := List.dropLast_append_getLast hne
  refine ⟨(s.rdropWhile isBlank).dropLast, (s.rdropWhile isBlank).getLast hne,
    s.rtakeWhile isBlank, ?_, hlast.symm, ?_, fun c hc => List.mem_rtakeWhile_imp hc⟩
  · rw [← List.singleton_append, ← List.append_assoc, hlast, List.rdropWhile_append_rtakeWhile]
  · simpa using List.rdropWhile_last_not isBlank s hne

/-- What is left of a string when the spaces have been taken off, from `pre` on. -/
theorem copy_yields_to (hsplit : src.bytes = pre ++ mid ++ d :: post)
    (hdest : dest.length = src.bytes.length + 1) :
    Yields (copy src dest 0 pre.length (pre.length + mid.length : Nat)) (mid ++ [d]) := by
  have hsrc : src.bytes = pre ++ (mid ++ [d]) ++ post := by
    rw [hsplit]
    simp
  have hcopy : Yields (copy src dest 0 pre.length (pre.length + (mid ++ [d]).length - 1))
      (mid ++ [d]) := copy_yields hsrc hdest
  have hlen : (pre.length : Int) + (mid ++ [d]).length - 1 = (pre.length + mid.length : Nat) := by
    simp
    omega
  rw [hlen] at hcopy
  exact hcopy

/-- `trim_r` takes the spaces off the end of a string with something else in it. -/
theorem trimR_yields (hdest : dest.length = src.bytes.length + 1)
    (h : ∃ c ∈ src.bytes, isBlank c = false) :
    Yields (trimR src dest) (src.bytes.rdropWhile isBlank) := by
  obtain ⟨mid, d, blanks, hsplit, hkept, hd, hblanks⟩ := rdropWhile_split h
  have hend : (src.bytes.length : Int) - 1 = (mid.length + blanks.length : Nat) := by
    rw [hsplit]
    simp
    omega
  have hskip : skipBackward src (mid.length + blanks.length : Nat) = some (mid.length : Int) :=
    skipBackward_eq (by rw [hsplit, List.append_nil]) hd hblanks
  rw [trimR, hend, hskip, hkept]
  have hcopy : Yields (copy src dest 0 ([] : List Byte).length
      (([] : List Byte).length + mid.length : Nat)) (mid ++ [d]) :=
    copy_yields_to (by rw [List.nil_append]; exact hsplit) hdest
  simpa using hcopy

/-- What is kept is behind the leading spaces. -/
theorem keep_dropWhile {s : List Byte} (h : ∃ c ∈ s, isBlank c = false) :
    ∃ c ∈ s.dropWhile isBlank, isBlank c = false := by
  obtain ⟨c, hc, hkeep⟩ := h
  rw [← List.takeWhile_append_dropWhile (p := isBlank) (l := s)] at hc
  rcases List.mem_append.mp hc with hc | hc
  · rw [List.mem_takeWhile_imp hc] at hkeep
    cases hkeep
  · exact ⟨c, hc, hkeep⟩

/-- And `trim` does both. -/
theorem trim_yields (hdest : dest.length = src.bytes.length + 1)
    (h : ∃ c ∈ src.bytes, isBlank c = false) :
    Yields (trim src dest) ((src.bytes.dropWhile isBlank).rdropWhile isBlank) := by
  have hfront := List.takeWhile_append_dropWhile (p := isBlank) (l := src.bytes)
  obtain ⟨mid, d, blanks, hsplit, hkept, hd, hblanks⟩ :=
    rdropWhile_split (keep_dropWhile h)
  rw [hsplit] at hfront
  have hend : (src.bytes.length : Int) - 1 =
      ((src.bytes.takeWhile isBlank ++ mid).length + blanks.length : Nat) := by
    have hlen := congrArg List.length hfront
    simp only [List.length_append, List.length_cons] at hlen ⊢
    omega
  have hskip : skipBackward src
      ((src.bytes.takeWhile isBlank ++ mid).length + blanks.length : Nat) =
        some ((src.bytes.takeWhile isBlank ++ mid).length : Int) :=
    skipBackward_eq (by rw [List.append_nil, List.append_assoc, hfront]) hd hblanks
  rw [trim, skipForward_front, hend, hskip, hkept, List.length_append]
  exact copy_yields_to (by rw [List.append_assoc, hfront]) hdest

/-- A string of spaces sends the scan from the end out of `src`. -/
theorem skipBackward_blanks (h : ∀ c ∈ src.bytes, isBlank c = true) :
    skipBackward src (src.bytes.length - 1) = none :=
  skipBackward_none (List.append_nil src.bytes).symm h

theorem trimR_undefined (h : ∀ c ∈ src.bytes, isBlank c = true) : trimR src dest = none := by
  rw [trimR, skipBackward_blanks h]
  rfl

theorem trim_undefined (h : ∀ c ∈ src.bytes, isBlank c = true) : trim src dest = none := by
  rw [trim, skipForward_front, skipBackward_blanks h]
  rfl

/--
**What the three functions promise of a string holds exactly if it has a character
other than a space.**
-/
theorem trims_iff (src : CString) :
    (∀ dest : List Byte, dest.length = src.bytes.length + 1 →
      Yields (trimL src dest) (src.bytes.dropWhile isBlank) ∧
      Yields (trimR src dest) (src.bytes.rdropWhile isBlank) ∧
      Yields (trim src dest) ((src.bytes.dropWhile isBlank).rdropWhile isBlank) ∧
      ∀ left ∈ (trimL src dest).map CString.ofBuffer, ∀ dest' : List Byte,
        dest'.length = left.bytes.length + 1 →
          (trimR left dest').map CString.ofBuffer = (trim src dest).map CString.ofBuffer) ↔
    ∃ c ∈ src.bytes, isBlank c = false := by
  constructor
  · intro hall
    by_contra hnone
    have hblank : ∀ c ∈ src.bytes, isBlank c = true := by
      intro c hc
      by_contra hkeep
      exact hnone ⟨c, hc, by simpa using hkeep⟩
    have hyields := (hall (terminated src) (by simp [terminated])).2.1
    rw [trimR_undefined hblank] at hyields
    cases hyields
  · intro h dest hdest
    have htrim := trim_yields hdest h
    refine ⟨trimL_yields hdest, trimR_yields hdest h, htrim, ?_⟩
    intro left hleft dest' hdest'
    have hyields : (trimL src dest).map CString.ofBuffer = _ := trimL_yields hdest
    rw [hyields] at hleft
    obtain rfl := Option.some.inj hleft
    have hbytes : (CString.ofBuffer (src.bytes.dropWhile isBlank)).bytes =
        src.bytes.dropWhile isBlank :=
      CString.bytes_ofBuffer fun c hc => src.nonzero c (List.dropWhile_subset isBlank hc)
    have hkeep : ∃ c ∈ (CString.ofBuffer (src.bytes.dropWhile isBlank)).bytes,
        isBlank c = false := by
      rw [hbytes]
      exact keep_dropWhile h
    have hright : (trimR (CString.ofBuffer (src.bytes.dropWhile isBlank)) dest').map
        CString.ofBuffer = _ := trimR_yields hdest' hkeep
    rw [hright, hbytes]
    exact htrim.symm

/-- The empty string and a space. -/
theorem trim_outside :
    trim (CString.lit "") [1] = none ∧ trimR (CString.lit " ") [1, 1] = none := by
  have hempty : (CString.lit "").bytes = [] := by decide
  have hspace : (CString.lit " ").bytes = [chr ' '] := by decide
  exact ⟨trim_undefined (by simp [hempty]), trimR_undefined (by simp [hspace, isBlank])⟩

end Results

end NanomsgDemo.Http

import Mathlib.Data.List.Basic

/-!
# Text streams

What a C runtime makes of the bytes that are written to a file opened as text, and of those
that are read. Where a line ends in `"\r\n"`, it puts the `'\r'` in and takes it out
again, and what follows a control-Z is not read.
-/

namespace TextStreams

/-- What comes to the file; with `crlf`, a line ends in `"\r\n"` there. -/
def write (crlf : Bool) (l : List UInt8) : List UInt8 :=
  l.flatMap fun c => if crlf ∧ c = 10 then [13, 10] else [c]

def readCrlf : List UInt8 → List UInt8
  | [] => []
  | 13 :: 10 :: l => 10 :: readCrlf l
  | c :: l => if c = 0x1A then [] else c :: readCrlf l

/-- What comes from the file. -/
def read (crlf : Bool) (l : List UInt8) : List UInt8 := if crlf then readCrlf l else l

variable {crlf : Bool} {c : UInt8} {l : List UInt8}

theorem write_cons (crlf : Bool) (c : UInt8) (l : List UInt8) :
    write crlf (c :: l) = (if crlf ∧ c = 10 then [13, 10] else [c]) ++ write crlf l :=
  List.flatMap_cons

theorem write_false (l : List UInt8) : write false l = l := by
  induction l with
  | nil => rfl
  | cons c l ih =>
      rw [write_cons, ih]
      rfl

theorem length_le_write (crlf : Bool) (l : List UInt8) : l.length ≤ (write crlf l).length := by
  induction l with
  | nil => exact Nat.le_refl 0
  | cons c l ih =>
      rw [write_cons, List.length_append, List.length_cons]
      split
      · rw [List.length_cons, List.length_singleton]
        omega
      · rw [List.length_singleton]
        omega

/-- A line feed never stands alone. -/
theorem write_ne_lineFeed (l m : List UInt8) : write true l ≠ 10 :: m := by
  cases l with
  | nil => exact (List.cons_ne_nil 10 m).symm
  | cons c l =>
      rw [write_cons]
      split
      · exact fun h => absurd (List.cons.inj h).1 (by decide)
      · rename_i hc
        exact fun h => hc ⟨rfl, (List.cons.inj h).1⟩

theorem readCrlf_cons (h : ∀ m, l ≠ 10 :: m) :
    readCrlf (c :: l) = if c = 0x1A then [] else c :: readCrlf l := by
  rw [readCrlf.eq_def]
  split
  · rename_i heq
    exact absurd heq (List.cons_ne_nil c l)
  · rename_i heq
    exact absurd (List.cons.inj heq).2 (h _)
  · rename_i heq
    obtain ⟨rfl, rfl⟩ := List.cons.inj heq
    rfl

/-- What is written comes back up to a control-Z. -/
theorem read_write (crlf : Bool) (l : List UInt8) :
    read crlf (write crlf l) = if crlf then l.takeWhile (· ≠ 0x1A) else l := by
  cases crlf with
  | false => exact write_false l
  | true =>
      show readCrlf (write true l) = l.takeWhile (· ≠ 0x1A)
      induction l with
      | nil => rfl
      | cons c l ih =>
          rw [write_cons, List.takeWhile_cons]
          by_cases hc : c = 10
          · subst hc
            show 10 :: readCrlf (write true l) = _
            rw [ih]
            rfl
          · rw [if_neg fun h => hc h.2, List.singleton_append,
              readCrlf_cons (write_ne_lineFeed l), ih]
            by_cases hz : c = 0x1A
            · rw [if_pos hz, if_neg (by simpa using hz)]
            · rw [if_neg hz, if_pos (by simpa using hz)]

end TextStreams

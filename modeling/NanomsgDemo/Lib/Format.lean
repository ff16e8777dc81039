import Mathlib.Data.List.Basic

/-!
# Formats without arguments

What C makes of a text that is handed to `printf` as the format, with nothing after
it. A `%%` stands for a `%`. Every other `%` begins a directive, and reads an argument
that was not passed.
-/

namespace Format

/-- The byte that begins a directive. -/
def percent : UInt8 := 0x25

/-- The text that a format without arguments stands for, `none` if it has a directive. -/
def expand : List UInt8 → Option (List UInt8)
  | [] => some []
  | c :: fmt =>
      if c = percent then
        match fmt with
        | d :: fmt' => if d = percent then (expand fmt').map (c :: ·) else none
        | [] => none
      else (expand fmt).map (c :: ·)

/-- Every `%` is one of a pair. -/
def paired : List UInt8 → Bool
  | [] => true
  | c :: s =>
      if c = percent then
        match s with
        | d :: s' => d = percent && paired s'
        | [] => false
      else paired s

theorem paired_cons {c : UInt8} (hc : c ≠ percent) (s : List UInt8) :
    paired (c :: s) = paired s := by
  rw [paired.eq_def]
  exact if_neg hc

theorem expand_cons {c : UInt8} (hc : c ≠ percent) (fmt : List UInt8) :
    expand (c :: fmt) = (expand fmt).map (c :: ·) := by
  rw [expand.eq_def]
  exact if_neg hc

/-- **The formats without directives are those whose `%` are paired.** -/
theorem expand_isSome (fmt : List UInt8) : (expand fmt).isSome = paired fmt := by
  fun_induction paired fmt with
  | case1 => rfl
  | case2 d s' ih =>
      by_cases hd : d = percent
      · simp [expand, hd, ih]
      · simp [expand, hd]
  | case3 => simp [expand]
  | case4 c s hc ih => rw [expand_cons hc, Option.isSome_map, ih]

/-- Text without `%` in front changes nothing. -/
theorem paired_plain_append {u : List UInt8} (h : percent ∉ u) (s : List UInt8) :
    paired (u ++ s) = paired s := by
  induction u with
  | nil => rfl
  | cons c u ih =>
      have hc : c ≠ percent := fun he => h (he ▸ List.mem_cons_self)
      have hu : percent ∉ u := fun hm => h (List.mem_cons_of_mem _ hm)
      rw [List.cons_append, paired_cons hc, ih hu]

/-- A character that is not `%` keeps what is before it and what is after it apart. -/
theorem paired_append_cons {c : UInt8} (hc : c ≠ percent) (s t : List UInt8) :
    paired (s ++ c :: t) = (paired s && paired t) := by
  fun_induction paired s with
  | case1 => exact paired_cons hc t
  | case2 d s' ih =>
      by_cases hd : d = percent
      · simp [paired, hd, ih]
      · simp [paired, hd]
  | case3 => simp [paired, hc]
  | case4 d s hd ih => rw [List.cons_append, paired_cons hd, ih]

end Format

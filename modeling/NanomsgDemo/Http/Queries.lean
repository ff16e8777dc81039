import Mathlib.Data.List.Induction
import NanomsgDemo.Http.QueryDecoders
import NanomsgDemo.Lib.Recycling

/-!
# What callers get from a query

A query that was put together from pairs, a query that is malformed, a query with a
key that occurs twice, and the buffer that the query was in.

`parse` reads back what has been joined, up to the `=` in a value and not without a
value (`parse_joined`). When it fails it keeps the pairs it has (`parse_failed_iff`),
where `split_url_pragma_data` assigns from a null pointer
(`splitUrlPragmaData_total_iff`). Of the values of one key the one finds the first and
the other keeps the last (`decoders_agree_on_keys`). And neither of them leaves the
buffer alone (`repeatable_iff`).
-/

namespace NanomsgDemo.Http

open Net (Byte CString chr)
open Tokens

namespace InPlace

/-! ## Joined pairs -/

/-- `k1=v1&k2=v2&…`. -/
def joined (pairs : List (CString × CString)) : List Byte :=
  [chr '&'].intercalate (pairs.map fun pkv => pkv.1.bytes ++ chr '=' :: pkv.2.bytes)

/-- A key without a delimiter and a value without `&`. -/
def Joinable (pkv : CString × CString) : Prop :=
  chr '&' ∉ pkv.1.bytes ∧ chr '=' ∉ pkv.1.bytes ∧ chr '&' ∉ pkv.2.bytes

/-- A value up to its first `=`. -/
def upToEq (v : CString) : CString := CString.ofBuffer (v.bytes.takeWhile (· ≠ chr '='))

theorem upToEq_of_plain {v : CString} (h : chr '=' ∉ v.bytes) : upToEq v = v := by
  rw [upToEq, takeWhile_ne_of_notMem h, CString.ofBuffer_bytes]

section Joined

variable {pairs : List (CString × CString)} {data : CString}

/-- The segments of joined pairs are the pairs. -/
theorem segments_joined (hne : pairs ≠ []) (h : ∀ pkv ∈ pairs, Joinable pkv)
    (hdata : data.bytes = joined pairs) :
    segments data = pairs.map fun pkv => pkv.1.bytes ++ chr '=' :: pkv.2.bytes := by
  have hplain : ∀ seg ∈ pairs.map fun pkv => pkv.1.bytes ++ chr '=' :: pkv.2.bytes,
      chr '&' ∉ seg := by
    intro seg hseg hmem
    obtain ⟨pkv, hpkv, rfl⟩ := List.mem_map.mp hseg
    obtain ⟨hk, _, hv⟩ := h pkv hpkv
    rcases List.mem_append.mp hmem with hm | hm
    · exact hk hm
    · rcases List.mem_cons.mp hm with hm | hm
      · exact absurd hm (by decide)
      · exact hv hm
  have hsplit := List.splitOn_intercalate (chr '&') hplain (by simpa using hne)
  have hbytes : data.bytes.splitOnP (fun c => decide (c = chr '&')) =
      pairs.map fun pkv => pkv.1.bytes ++ chr '=' :: pkv.2.bytes := by
    rw [hdata]
    exact hsplit
  rcases tokens_or (fun c => decide (c = chr '&')) data.bytes with ⟨heq, _⟩ | heq
  · exact heq.trans hbytes
  · -- the last segment has a `=` in it
    rw [hbytes] at heq
    have hmem : [] ∈ pairs.map fun pkv => pkv.1.bytes ++ chr '=' :: pkv.2.bytes := by
      rw [heq]
      simp
    obtain ⟨pkv, _, hempty⟩ := List.mem_map.mp hmem
    simp at hempty

theorem pair_joinable {pkv : CString × CString} (h : Joinable pkv) (hv : pkv.2.bytes ≠ []) :
    KVQueryUrlValue.pair (pkv.1.bytes ++ chr '=' :: pkv.2.bytes) =
      some (pkv.1, upToEq pkv.2) := by
  rw [pair_cut h.2.1 hv, CString.ofBuffer_bytes]
  rfl

/-- A pair is one again if it has a value. -/
theorem isPair_joinable {pkv : CString × CString} (h : Joinable pkv) :
    IsPair (pkv.1.bytes ++ chr '=' :: pkv.2.bytes) ↔ pkv.2.bytes ≠ [] :=
  isPair_cut_iff h.2.1

/-- **What `parse` reads back of joined pairs.** -/
theorem parse_joined (self : KVQueryUrlValue) (hne : pairs ≠ [])
    (h : ∀ pkv ∈ pairs, Joinable pkv) (hdata : data.bytes = joined pairs) :
    let r := (parse self data.bytes).2
    (r.2 = 0 ↔ ∀ pkv ∈ pairs, pkv.2.bytes ≠ []) ∧
    ((∀ pkv ∈ pairs, pkv.2.bytes ≠ []) →
      r.1.each = pairs.map fun pkv => (pkv.1, upToEq pkv.2)) := by
  have hsegs := segments_joined hne h hdata
  have hbytes : data.bytes ≠ [] := by
    intro hempty
    rw [segments_eq_nil_iff.mpr hempty] at hsegs
    exact hne (List.map_eq_nil_iff.mp hsegs.symm)
  dsimp only
  rw [parse_result, parse_kv, hsegs, List.forall_mem_map, and_iff_right hbytes]
  refine ⟨forall₂_congr ?_, ?_⟩
  · intro pkv hpkv
    exact isPair_joinable (h pkv hpkv)
  intro hall
  have hpairs : ∀ pkv ∈ pairs,
      KVQueryUrlValue.pair (pkv.1.bytes ++ chr '=' :: pkv.2.bytes) =
        some (pkv.1, upToEq pkv.2) := by
    intro pkv hpkv
    exact pair_joinable (h pkv hpkv) (hall pkv hpkv)
  rw [leading_eq_filterMap (List.forall_mem_map.mpr fun pkv hpkv => by simp [hpairs pkv hpkv]),
    List.filterMap_map, ← List.filterMap_eq_map]
  exact List.filterMap_congr hpairs

/--
**A query of joined pairs is read back.**

`parse` returns 0 exactly if each of the pairs has a value. Then `each` visits the keys
in their order, each with its value where that has no `=` in it, and `find` returns the
value of the first pair with the key.
-/
theorem parse_round_trip (self : KVQueryUrlValue) (hne : pairs ≠ [])
    (h : ∀ pkv ∈ pairs, Joinable pkv) (hdata : data.bytes = joined pairs) :
    let r := (parse self data.bytes).2
    (r.2 = 0 ↔ ∀ pkv ∈ pairs, pkv.2.bytes ≠ []) ∧
    (r.2 = 0 →
      List.Forall₂ (fun pkv visited => visited.1 = pkv.1 ∧
        (chr '=' ∉ pkv.2.bytes → visited.2 = pkv.2)) pairs r.1.each ∧
      ∀ k, match pairs.find? fun pkv => pkv.1 = k with
        | none => r.1.find k = none
        | some pkv => chr '=' ∉ pkv.2.bytes → r.1.find k = some pkv.2) := by
  obtain ⟨hzero, heach⟩ := parse_joined self hne h hdata
  refine ⟨hzero, ?_⟩
  intro hret
  have hkv := heach (hzero.mp hret)
  constructor
  · rw [hkv, List.forall₂_map_right_iff, List.forall₂_same]
    intro pkv _
    exact ⟨rfl, upToEq_of_plain⟩
  · intro k
    have hfind : (parse self data.bytes).2.1.find k =
        (pairs.find? fun pkv => pkv.1 = k).map fun pkv => upToEq pkv.2 := by
      show ((parse self data.bytes).2.1.each.find? fun pkv => pkv.1 = k).map Prod.snd = _
      rw [hkv, List.find?_map, Option.map_map]
      rfl
    rw [hfind]
    cases pairs.find? fun pkv => pkv.1 = k with
    | none => rfl
    | some pkv => exact fun hplain => congrArg some (upToEq_of_plain hplain)

/-- A query with a key twice, and with an `=` in a value. -/
theorem parse_round_trip_twice :
    let pairs := [(CString.lit "a", CString.lit "1"), (CString.lit "a", CString.lit "2"),
      (CString.lit "b", CString.lit "3=4")]
    let r := (parse ⟨[]⟩ (CString.lit "a=1&a=2&b=3=4").bytes).2
    (r.2 = 0 ↔ ∀ pkv ∈ pairs, pkv.2.bytes ≠ []) ∧
    (r.2 = 0 →
      List.Forall₂ (fun pkv visited => visited.1 = pkv.1 ∧
        (chr '=' ∉ pkv.2.bytes → visited.2 = pkv.2)) pairs r.1.each ∧
      ∀ k, match pairs.find? fun pkv => pkv.1 = k with
        | none => r.1.find k = none
        | some pkv => chr '=' ∉ pkv.2.bytes → r.1.find k = some pkv.2) := by
  refine parse_round_trip _ (by decide) ?_ (by decide)
  intro pkv hpkv
  simp only [List.mem_cons, List.not_mem_nil, or_false] at hpkv
  rcases hpkv with rfl | rfl | rfl
  · exact ⟨by decide, by decide, by decide⟩
  · exact ⟨by decide, by decide, by decide⟩
  · exact ⟨by decide, by decide, by decide⟩

/-- Without a value the query is refused, and of a value with a `=` only the front is kept. -/
theorem parse_not_round_trip :
    ((CString.lit "a=").bytes = joined [(CString.lit "a", CString.lit "")] ∧
      (parse ⟨[]⟩ (CString.lit "a=").bytes).2.2 = -1) ∧
    ((CString.lit "a=b=c").bytes = joined [(CString.lit "a", CString.lit "b=c")] ∧
      (parse ⟨[]⟩ (CString.lit "a=b=c").bytes).2.1.each =
        [(CString.lit "a", CString.lit "b")]) := by
  refine ⟨⟨by decide, ?_⟩, by decide, ?_⟩
  · rw [parse_refines, parse_eq]
    decide
  · rw [parse_refines, parse_eq]
    decide

end Joined

/-! ## Queries that are not pairs throughout -/

/--
**What a failed `parse` leaves in the object.**

It is empty unless the query begins with a pair and has a segment that is not one.
-/
theorem parse_failed_iff (self : KVQueryUrlValue) (data : CString) :
    let r := (parse self data.bytes).2
    (r.2 ≠ 0 → r.1.each = [] ∧ ∀ key, r.1.find key = none) ↔
      (∀ seg ∈ segments data, IsPair seg) ∨ ∀ seg ∈ (segments data).head?, ¬IsPair seg := by
  have hresult := parse_result self data
  have hempty : (parse self data.bytes).2.1.each = [] ↔
      ∀ seg ∈ (segments data).head?, ¬IsPair seg := by
    rw [parse_kv, leading_eq_nil_iff]
    refine forall₂_congr fun seg _ => ?_
    rw [← pair_ne_none_iff, not_not]
  have hfind : (parse self data.bytes).2.1.each = [] →
      ∀ key, (parse self data.bytes).2.1.find key = none := by
    intro hnil key
    show ((parse self data.bytes).2.1.each.find? fun pkv => pkv.1 = key).map Prod.snd = none
    rw [hnil]
    rfl
  dsimp only
  constructor
  · intro hkept
    by_cases hret : (parse self data.bytes).2.2 = 0
    · exact .inl (hresult.mp hret).2
    · exact .inr (hempty.mp (hkept hret).1)
  · rintro (hall | hhead) hret
    · -- only the empty query has no segment at all
      have hbytes : data.bytes = [] := by
        by_contra hne
        exact hret (hresult.mpr ⟨hne, hall⟩)
      have hnil : (parse self data.bytes).2.1.each = [] := by
        rw [parse_kv, segments_eq_nil_iff.mpr hbytes]
        rfl
      exact ⟨hnil, hfind hnil⟩
    · exact ⟨hempty.mpr hhead, hfind (hempty.mpr hhead)⟩

/-- The pair in front of a segment without a value is kept. -/
theorem parse_failed_half_done :
    let r := (parse ⟨[]⟩ (CString.lit "a=1&b").bytes).2
    r.2 = -1 ∧ r.1.each = [(CString.lit "a", CString.lit "1")] ∧
      r.1.find (CString.lit "a") = some (CString.lit "1") := by
  rw [parse_refines, parse_eq]
  decide

/-- The key of a pair. -/
def keyOf (segment : List Byte) : CString :=
  CString.ofBuffer (segment.takeWhile (· ≠ chr '='))

theorem pair_key {segment : List Byte} (h : IsPair segment) :
    ∃ v, KVQueryUrlValue.pair segment = some (keyOf segment, v) := by
  obtain ⟨k, v, rfl, hk, hv⟩ := h
  have hkey : keyOf (k ++ chr '=' :: v) = CString.ofBuffer k := by
    rw [keyOf, takeWhile_ne_append hk, List.takeWhile_cons_of_neg (by simp), List.append_nil]
  exact ⟨_, by rw [pair_cut hk hv, hkey]⟩

theorem lookup_pragmaData (kv : List (CString × CString)) (k : CString) :
    (pragmaData kv).lookup k = (kv.reverse.find? fun pkv => pkv.1 = k).map Prod.snd := by
  induction kv using List.reverseRecOn with
  | nil => rfl
  | append_singleton kv pkv ih =>
      rw [pragmaData_concat, Recycling.lookup_insert_eq, List.reverse_append,
        List.reverse_singleton, List.singleton_append, List.find?_cons]
      by_cases hk : k = pkv.1
      · simp [hk]
      · have hk' : pkv.1 ≠ k := Ne.symm hk
        simp [hk, hk', ih]

theorem mem_pragmaData (kv : List (CString × CString)) (k : CString) :
    k ∈ pragmaData kv ↔ ∃ v, (k, v) ∈ kv := by
  rw [← AList.lookup_isSome, lookup_pragmaData, Option.isSome_map, List.find?_isSome]
  constructor
  · rintro ⟨⟨_, v⟩, hmem, hk⟩
    obtain rfl := of_decide_eq_true hk
    exact ⟨v, List.mem_reverse.mp hmem⟩
  · rintro ⟨v, hmem⟩
    exact ⟨(k, v), List.mem_reverse.mpr hmem, by simp⟩

/--
**`split_url_pragma_data` is defined, and has the key of every pair, exactly if every
segment is a pair.**
-/
theorem splitUrlPragmaData_total_iff (str : CString) :
    (∃ buf s, splitUrlPragmaData str.bytes = some (buf, s) ∧
      ∀ seg ∈ segments str, IsPair seg → keyOf seg ∈ s) ↔
    ∀ seg ∈ segments str, IsPair seg := by
  have heq := splitUrlPragmaData_eq ⟨[]⟩ str
  by_cases hempty : str.bytes = []
  · rw [if_pos hempty] at heq
    have hnil := segments_eq_nil_iff.mpr hempty
    exact iff_of_true ⟨_, _, heq, by simp [hnil]⟩ (by simp [hnil])
  by_cases hall : ∀ seg ∈ segments str, IsPair seg
  · rw [if_neg hempty, if_pos hall] at heq
    refine iff_of_true ⟨_, _, heq, ?_⟩ hall
    intro seg hseg hpair
    obtain ⟨v, hv⟩ := pair_key hpair
    rw [mem_pragmaData, parse_kv,
      leading_eq_filterMap fun seg hseg => pair_ne_none_iff.mpr (hall seg hseg)]
    exact ⟨v, List.mem_filterMap.mpr ⟨seg, hseg, hv⟩⟩
  · rw [if_neg hempty, if_neg hall] at heq
    refine iff_of_false ?_ hall
    intro ⟨buf, s, hsome, _⟩
    rw [heq] at hsome
    cases hsome

/-- Two `&` in a row are enough. -/
theorem splitUrlPragmaData_undefined :
    splitUrlPragmaData (CString.lit "a=1&&b=2").bytes = none := by
  rw [splitUrlPragmaData_eq ⟨[]⟩]
  decide

/-! ## Keys that occur more than once -/

/--
**How the two decoders agree.**

Where `parse` returns 0, the map has the keys that `each` visits. It has the last value
of each of them, and `find` returns the first one.
-/
theorem decoders_agree_on_keys (self : KVQueryUrlValue) (data : CString)
    (h : (parse self data.bytes).2.2 = 0) :
    ∃ buf s, splitUrlPragmaData data.bytes = some (buf, s) ∧
      let kv := (parse self data.bytes).2.1
      (∀ k, k ∈ s ↔ ∃ v, (k, v) ∈ kv.each) ∧
      (∀ k, s.lookup k = (kv.each.reverse.find? fun pkv => pkv.1 = k).map Prod.snd) ∧
      (∀ k, kv.find k = (kv.each.find? fun pkv => pkv.1 = k).map Prod.snd) ∧
      ∀ k, (∀ v w, (k, v) ∈ kv.each → (k, w) ∈ kv.each → v = w) → s.lookup k = kv.find k := by
  obtain ⟨hne, hall⟩ := (parse_result self data).mp h
  have heq := splitUrlPragmaData_eq self data
  rw [if_neg hne, if_pos hall] at heq
  refine ⟨_, _, heq, mem_pragmaData _, lookup_pragmaData _, fun k => rfl, ?_⟩
  intro k hsame
  rw [lookup_pragmaData]
  generalize (parse self data.bytes).2.1 = kv at hsame ⊢
  show (kv.each.reverse.find? fun pkv => pkv.1 = k).map Prod.snd =
    (kv.each.find? fun pkv => pkv.1 = k).map Prod.snd
  cases hfirst : kv.each.find? fun pkv => pkv.1 = k with
  | none =>
      have hlast : (kv.each.reverse.find? fun pkv => pkv.1 = k) = none := by
        rw [List.find?_eq_none] at hfirst ⊢
        exact fun pkv hpkv => hfirst pkv (List.mem_reverse.mp hpkv)
      rw [hlast]
  | some first =>
      cases hlast : kv.each.reverse.find? fun pkv => pkv.1 = k with
      | none =>
          rw [List.find?_eq_none] at hlast
          have hmem := List.mem_of_find?_eq_some hfirst
          exact absurd (List.find?_some hfirst) (hlast first (List.mem_reverse.mpr hmem))
      | some last =>
          obtain rfl : first.1 = k := by simpa using List.find?_some hfirst
          have hkey : last.1 = first.1 := by simpa using List.find?_some hlast
          have hmem : (first.1, last.2) ∈ kv.each := by
            rw [← hkey]
            exact List.mem_reverse.mp (List.mem_of_find?_eq_some hlast)
          exact congrArg some (hsame _ _ hmem (List.mem_of_find?_eq_some hfirst))

/-- A query with three keys. -/
theorem decoders_agree_on_three :
    ∃ buf s, splitUrlPragmaData (CString.lit "a=1&b=2&c=3").bytes = some (buf, s) ∧
      let kv := (parse ⟨[]⟩ (CString.lit "a=1&b=2&c=3").bytes).2.1
      (∀ k, k ∈ s ↔ ∃ v, (k, v) ∈ kv.each) ∧
      (∀ k, s.lookup k = (kv.each.reverse.find? fun pkv => pkv.1 = k).map Prod.snd) ∧
      (∀ k, kv.find k = (kv.each.find? fun pkv => pkv.1 = k).map Prod.snd) ∧
      ∀ k, (∀ v w, (k, v) ∈ kv.each → (k, w) ∈ kv.each → v = w) → s.lookup k = kv.find k := by
  refine decoders_agree_on_keys ⟨[]⟩ (CString.lit "a=1&b=2&c=3") ?_
  rw [parse_refines, parse_eq]
  decide

/-- With a key twice they differ. -/
theorem decoders_differ :
    (parse ⟨[]⟩ (CString.lit "a=1&a=2").bytes).2.2 = 0 ∧
    (parse ⟨[]⟩ (CString.lit "a=1&a=2").bytes).2.1.find (CString.lit "a") =
      some (CString.lit "1") ∧
    (splitUrlPragmaData (CString.lit "a=1&a=2").bytes).map (fun r => r.2.lookup (CString.lit "a")) =
      some (some (CString.lit "2")) := by
  rw [splitUrlPragmaData_eq ⟨[]⟩, parse_refines, parse_eq]
  decide

/-! ## The buffer of the caller -/

section Buffers

variable {ρ : Type*}

/-- A call leaves the buffer as it was, and returns the same again. -/
def Repeatable (call : List Byte → Option (List Byte × ρ)) (buf : List Byte) : Prop :=
  ∃ buf' r, call buf = some (buf', r) ∧ buf' = buf ∧ ∃ buf'', call buf' = some (buf'', r)

/-- The second half follows from the first. -/
theorem repeatable_of_some {call : List Byte → Option (List Byte × ρ)} {buf buf' : List Byte}
    {r : ρ} (h : call buf = some (buf', r)) : Repeatable call buf ↔ buf' = buf := by
  constructor
  · rintro ⟨buf'', r', hcall, heq, _⟩
    rw [h] at hcall
    cases hcall
    exact heq
  · rintro rfl
    exact ⟨_, _, h, rfl, _, h⟩

theorem repeatable_of_none {call : List Byte → Option (List Byte × ρ)} {buf : List Byte}
    (h : call buf = none) : ¬Repeatable call buf := by
  rintro ⟨buf', r, hcall, _⟩
  rw [h] at hcall
  cases hcall

/-- After its first round the loop of `parse` writes nothing but NULs either. -/
theorem onlyNuls_of_pair (buf : List Byte) (kv : List (CString × CString)) (p0 : Nat)
    (p1 : Option Nat) : OnlyNuls (pair buf p0).1 (parseLoop buf kv p0 p1).1 := by
  have hcall := onlyNuls_lwStrtokR (pair buf p0).1 none (CString.lit "&") p1
  rcases parseLoop_cases buf p0 p1 with
    hp | ⟨pkv, buf', p1', hp, hnext⟩ | ⟨pkv, buf', p0', p1', hp, hnext⟩
  · rw [parseLoop_none hp]
    exact OnlyNuls.refl _
  · rw [hnext] at hcall
    rw [parseLoop_last hp hnext]
    exact hcall
  · rw [hnext] at hcall
    rw [parseLoop_next hp hnext]
    exact hcall.trans (onlyNuls_parseLoop _ _ _ _)

/-- The loop leaves the buffer alone exactly if it stops at its first segment. -/
theorem parseLoop_buffer (buf : List Byte) (kv : List (CString × CString)) (p0 : Nat)
    (p1 : Option Nat) : (parseLoop buf kv p0 p1).1 = buf ↔ chr '=' ∉ (str buf p0).bytes := by
  rcases plain_or_cut buf p0 with h | ⟨k, v, h, hk⟩
  · rw [parseLoop_none (by rw [pair_plain h]), pair_plain h]
    exact iff_of_true rfl h
  · have hmem : chr '=' ∈ (str buf p0).bytes := by
      rw [h]
      simp
    have hnuls := onlyNuls_of_pair buf kv p0 p1
    rw [pair_of_cut h hk] at hnuls
    have hcut := (onlyNuls_lwStrtokR (buf.set (p0 + k.length) 0) none
      (CString.lit "=") (some (p0 + k.length + 1))).trans hnuls
    refine iff_of_false (OnlyNuls.ne_of_set h hcut) ?_
    intro hplain
    exact hplain hmem

/-- **`parse` leaves the strings alone in which there is nothing to cut.** -/
theorem parse_buffer (self : KVQueryUrlValue) (data : CString) :
    (parse self data.bytes).1 = data.bytes ↔
      chr '&' ∉ data.bytes ∧ chr '=' ∉ data.bytes := by
  have hstr : (str data.bytes 0).bytes = data.bytes := by rw [str_zero]
  rcases lwStrtokR_cases data.bytes (some 0) (CString.lit "&") none with
    ⟨hnull, hfirst⟩ | ⟨p, hp, _, hplain, hfirst⟩ | ⟨p, t, c, rest, hp, hcut, _, hc, hfirst⟩
  · have hempty : data.bytes = [] := hstr.symm.trans (hnull 0 rfl)
    rw [parse, hfirst, hempty]
    simp
  · obtain rfl : 0 = p := Option.some.inj hp
    rw [hstr, strchr_lit_amp] at hplain
    have hloop := parseLoop_buffer data.bytes [] 0 none
    rw [hstr] at hloop
    rw [parse, hfirst]
    exact hloop.trans (and_iff_right (forall_ne_iff.mp hplain)).symm
  · obtain rfl : 0 = p := Option.some.inj hp
    obtain rfl : c = chr '&' := by simpa [strchr_lit_amp] using hc
    have hmem : chr '&' ∈ data.bytes := by
      rw [← hstr, hcut]
      simp
    rw [parse, hfirst]
    refine iff_of_false (OnlyNuls.ne_of_set hcut (onlyNuls_parseLoop _ _ _ _)) ?_
    intro hplain
    exact hplain.1 hmem

theorem onlyNuls_splitLoop (buf : List Byte) (pattern : CString) (s : List CString) (p : Nat)
    (p1 : Option Nat) : OnlyNuls buf (splitLoop buf pattern s p p1).1 := by
  induction hn : left buf p1 using Nat.strongRecOn generalizing buf s p p1 with
  | ind n ih =>
      subst hn
      have hnuls := onlyNuls_lwStrtokR buf none pattern p1
      cases hcall : lwStrtokR buf none pattern p1 with
      | mk buf' r =>
          obtain ⟨p', p1'⟩ := r
          rw [hcall] at hnuls
          cases p' with
          | none =>
              rw [splitLoop_last hcall]
              exact hnuls
          | some p' =>
              rw [splitLoop_next hcall]
              exact hnuls.trans (ih _ (left_lwStrtokR hcall) buf' _ p' p1' rfl)

/-- `split` leaves a string without delimiters alone. -/
theorem split_buffer (s pattern : CString) :
    (split s.bytes pattern).1 = s.bytes ↔ ∀ c ∈ s.bytes, c ∉ pattern.bytes := by
  have hstr : (str s.bytes 0).bytes = s.bytes := by rw [str_zero]
  rcases lwStrtokR_cases s.bytes (some 0) pattern none with
    ⟨hnull, hfirst⟩ | ⟨p, hp, _, hplain, hfirst⟩ | ⟨p, t, c, rest, hp, hcut, _, hc, hfirst⟩
  · have hempty : s.bytes = [] := hstr.symm.trans (hnull 0 rfl)
    rw [split, hfirst, hempty]
    simp
  · have hnext : lwStrtokR s.bytes none pattern none = (s.bytes, none, none) :=
      lwStrtokR_null (by simp)
    obtain rfl : 0 = p := Option.some.inj hp
    rw [hstr] at hplain
    rw [split, hfirst]
    dsimp only
    rw [splitLoop_last hnext]
    refine iff_of_true rfl ?_
    intro c hc
    simpa [strchr] using hplain c hc
  · obtain rfl : 0 = p := Option.some.inj hp
    rw [split, hfirst]
    refine iff_of_false (OnlyNuls.ne_of_set hcut (onlyNuls_splitLoop _ _ _ _ _)) ?_
    intro hplain
    have hmem : c ∈ s.bytes := by
      rw [← hstr, hcut]
      simp
    exact hplain c hmem (by simpa [strchr] using hc)

/--
**When the decoders do not consume their input.**

Each of them does so as soon as there is something to cut; and `split_url_pragma_data`
is undefined for any other string but the empty one.
-/
theorem repeatable_iff (self : KVQueryUrlValue) (data pattern : CString) :
    (Repeatable (fun buf => some (parse self buf)) data.bytes ↔
      chr '&' ∉ data.bytes ∧ chr '=' ∉ data.bytes) ∧
    (Repeatable (fun buf => some (split buf pattern)) data.bytes ↔
      ∀ c ∈ data.bytes, c ∉ pattern.bytes) ∧
    (Repeatable splitUrlPragmaData data.bytes ↔ data.bytes = []) := by
  refine ⟨(repeatable_of_some rfl).trans (parse_buffer self data),
    (repeatable_of_some rfl).trans (split_buffer data pattern), ?_⟩
  have heq := splitUrlPragmaData_eq self data
  by_cases hempty : data.bytes = []
  · rw [if_pos hempty] at heq
    exact iff_of_true ((repeatable_of_some heq).mpr rfl) hempty
  rw [if_neg hempty] at heq
  refine iff_of_false ?_ hempty
  by_cases hall : ∀ seg ∈ segments data, IsPair seg
  · rw [if_pos hall] at heq
    rw [repeatable_of_some heq, parse_buffer]
    intro hplain
    -- without delimiters there is one segment, and it has no `=`
    have hsegs : segments data = [data.bytes] := tokens_end_one hempty hplain.1
    obtain ⟨k, v, hkv, _, _⟩ := hall data.bytes (by simp [hsegs])
    exact hplain.2 (by rw [hkv]; simp)
  · rw [if_neg hall] at heq
    exact repeatable_of_none heq

/-- One pair is enough: the `=` is gone, and the second call finds no pair. -/
theorem parse_consumes :
    let buf := (CString.lit "a=1").bytes
    (parse ⟨[]⟩ buf).2.2 = 0 ∧ (parse ⟨[]⟩ buf).1 ≠ buf ∧
      (parse ⟨[]⟩ (parse ⟨[]⟩ buf).1).2.2 = -1 := by
  have hnext : lwStrtokR (pair (CString.lit "a=1").bytes 0).1 none (CString.lit "&") none =
      ([chr 'a', 0, chr '1'], none, none) := by decide
  have hfirst : parse ⟨[]⟩ (CString.lit "a=1").bytes =
      ([chr 'a', 0, chr '1'], ⟨[(CString.lit "a", CString.lit "1")]⟩, 0) :=
    parseLoop_last (by decide) hnext
  have hagain : parse ⟨[]⟩ [chr 'a', 0, chr '1'] = ([chr 'a', 0, chr '1'], ⟨[]⟩, -1) :=
    parseLoop_none (by decide)
  dsimp only
  rw [hfirst, hagain]
  decide

end Buffers

end InPlace

end NanomsgDemo.Http

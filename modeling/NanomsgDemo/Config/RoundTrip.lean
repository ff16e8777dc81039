import Mathlib.Data.List.Chain
import NanomsgDemo.Config.StoredProperties

/-!
# What comes back

Over all keys and values without `&#x`: what `loadFromXML` does with a file that
`storeToXML` has written, and for which properties it brings back what was stored.
-/

namespace NanomsgDemo.Config

open Net (Byte chr text)
open Properties (init storeToXML loadEntries)

/-! ## Texts as C strings, and blank ones -/

/-- What is left of a text that passes through a C string. -/
def beforeNul (s : List Char) : List Char := s.takeWhile (· ≠ '\x00')

/-- White space in the C locale. -/
def isSpaceCharacter (c : Char) : Bool := (9 ≤ c.toNat && c.toNat ≤ 13) || c = ' '

theorem cStr_encode (s : List Char) : cStr (encode s) = encode (beforeNul s) := by
  unfold cStr beforeNul
  induction s with
  | nil => rfl
  | cons c s ih =>
      rw [encode_cons, List.takeWhile_cons]
      by_cases hc : c = '\x00'
      · subst hc
        rfl
      · have hbytes : ∀ b ∈ String.utf8EncodeChar c, decide (b ≠ 0) = true := by
          intro b hb
          refine decide_eq_true ?_
          rintro rfl
          by_cases ha : c.toNat < 128
          · rw [utf8_ascii ha, List.mem_singleton] at hb
            have hnat := congrArg UInt8.toNat hb
            rw [UInt8.toNat_ofNat', Nat.mod_eq_of_lt (by omega)] at hnat
            refine hc ?_
            rw [← Char.ofNat_toNat c, ← hnat]
            rfl
          · obtain ⟨lead, more, hm⟩ := exists_multibyte (c := c) (by omega)
            rw [hm.bytes] at hb
            exact absurd (hm.high 0 hb) (by decide)
        rw [List.takeWhile_append_of_pos hbytes, ih, if_pos (decide_eq_true hc), encode_cons]

theorem isWhiteSpace_encode (c : Char) :
    (String.utf8EncodeChar c).all isWhiteSpace = isSpaceCharacter c := by
  by_cases ha : c.toNat < 128
  · have hall : ∀ n : Fin 128, isWhiteSpace (UInt8.ofNat n) =
        ((9 ≤ n.val && n.val ≤ 13) || n.val = 32) := by decide
    have hspace : (c = ' ') ↔ c.toNat = 32 := by
      refine ⟨fun h => by rw [h]; rfl, fun h => ?_⟩
      rw [← Char.ofNat_toNat c, h]
    rw [utf8_ascii ha]
    show (isWhiteSpace (UInt8.ofNat c.toNat) && true) = _
    rw [Bool.and_true, hall ⟨c.toNat, ha⟩]
    unfold isSpaceCharacter
    rw [decide_eq_decide.mpr hspace]
  · obtain ⟨lead, more, hm⟩ := exists_multibyte (c := c) (by omega)
    have hlead := hm.high lead List.mem_cons_self
    have hspace : isSpaceCharacter c = false := by
      unfold isSpaceCharacter
      simp only [Bool.or_eq_false_iff, Bool.and_eq_false_iff, decide_eq_false_iff_not]
      refine ⟨Or.inr (by omega), ?_⟩
      rintro rfl
      exact ha (by decide)
    have hno : isWhiteSpace lead = false := by
      unfold isWhiteSpace
      simp only [UInt8.le_iff_toNat_le, Bool.or_eq_false_iff, Bool.and_eq_false_iff,
        decide_eq_false_iff_not]
      exact ⟨Or.inr (Nat.not_le.mpr (Nat.lt_of_lt_of_le (by decide) hlead)),
        ne_of_high hlead (by decide)⟩
    rw [hm.bytes, hspace, List.all_cons, hno, Bool.false_and]

theorem blank_encode (s : List Char) : blank (encode s) = s.all isSpaceCharacter := by
  unfold blank
  induction s with
  | nil => rfl
  | cons c s ih => rw [encode_cons, List.all_append, List.all_cons, isWhiteSpace_encode, ih]

theorem squeeze_all (space : Bool) (s : List Char) :
    (squeeze space s).all isSpaceCharacter = s.all isSpaceCharacter := by
  induction s generalizing space with
  | nil => rfl
  | cons c s ih =>
      unfold squeeze
      by_cases hc : c = ' '
      · rw [if_pos hc, ih, List.all_cons, hc]
        rfl
      · rw [if_neg hc, List.all_append, List.all_cons, List.all_cons, ih]
        cases space <;> rfl

/-- A value of which TinyXml makes no node. -/
def Entry.Blank (e : Entry) : Prop := (trimStart e.2).all isSpaceCharacter = true

instance (e : Entry) : Decidable e.Blank := inferInstanceAs (Decidable (_ = true))

theorem Entry.blank_iff (e : Entry) : blank (encode (condensed e.2)) = true ↔ e.Blank := by
  unfold condensed Blank
  rw [blank_encode, squeeze_all]

/-! ## Loading what is stored -/

/-- The pair that is set for an entry, when it is loaded. -/
def Entry.reloaded (e : Entry) : List Byte × List Byte :=
  (encode (beforeNul e.1), encode (beforeNul (condensed e.2)))

theorem loadEntries_loaded (p : Properties) (es : List Entry) :
    loadEntries p (es.map Entry.loaded) =
      if ∃ e ∈ es, e.Blank then .error .undefined
      else .ok ((es.map Entry.reloaded).foldl (fun p e => p.setProperty e.1 e.2) p) := by
  induction es generalizing p with
  | nil => rfl
  | cons e es ih =>
      by_cases hblank : e.Blank
      · have hnodes : valueNodes e.2 = [] := if_pos (e.blank_iff.mpr hblank)
        rw [if_pos ⟨e, List.mem_cons_self, hblank⟩, List.map_cons]
        unfold Entry.loaded
        rw [hnodes]
        rfl
      · have hnodes : valueNodes e.2 = [.text (encode (condensed e.2)) false] :=
          if_neg fun h => hblank (e.blank_iff.mp h)
        have hset : loadEntries p ((e :: es).map Entry.loaded) = loadEntries
            (p.setProperty (cStr (encode e.1)) (cStr (encode (condensed e.2))))
            (es.map Entry.loaded) := by
          rw [List.map_cons]
          show loadEntries p (.element (text "entry") _ (valueNodes e.2) :: _) = _
          rw [hnodes]
          rfl
        rw [hset, ih, cStr_encode, cStr_encode, List.map_cons, List.foldl_cons]
        have hexists : (∃ f ∈ e :: es, f.Blank) ↔ ∃ f ∈ es, f.Blank := by
          simp [hblank]
        simp only [hexists]
        rfl

/-- What a stored file is to the properties that load it. -/
theorem load_stored (p : Properties) (crlf : Bool) (es : List Entry)
    (hclean : ∀ e ∈ es, e.Clean) :
    p.loadFromXML (some (storeToXML crlf (es.map Entry.bytes))) =
      if ∃ e ∈ es, e.Blank then .error .undefined
      else .ok ((es.map Entry.reloaded).foldl (fun p e => p.setProperty e.1 e.2) p, true) := by
  have hfile : loadFile (some (storeToXML crlf (es.map Entry.bytes))) =
      .ok (loadedNodes es, false) := by
    show parseDocument (normalize (TextStreams.write crlf (printDocument _))) = _
    rw [printDocument_stored hclean, normalize_write crlf printed_bytes, parseDocument_stored]
  unfold Properties.loadFromXML
  rw [hfile]
  show (loadEntries p (es.map Entry.loaded) >>= _) = _
  rw [loadEntries_loaded]
  split <;> rfl

/-- No two spaces. -/
abbrev NotBothSpaces (c d : Char) : Prop := ¬ (c = ' ' ∧ d = ' ')

theorem squeeze_space (space : Bool) (s : List Char) :
    squeeze space (' ' :: s) = squeeze true s := if_pos rfl

theorem squeeze_true_cons {c : Char} (hc : c ≠ ' ') (s : List Char) :
    squeeze true (c :: s) = ' ' :: squeeze false (c :: s) := by
  unfold squeeze
  rw [if_neg hc, if_neg hc]
  rfl

theorem squeeze_sublist (space : Bool) (s : List Char) :
    (squeeze space s).Sublist (if space then ' ' :: s else s) := by
  induction s generalizing space with
  | nil => exact List.nil_sublist _
  | cons c s ih =>
      by_cases hc : c = ' '
      · subst hc
        rw [squeeze_space]
        cases space with
        | false => exact ih true
        | true => exact (ih true).cons ' '
      · have hrest : (squeeze false (c :: s)).Sublist (c :: s) := by
          unfold squeeze
          rw [if_neg hc]
          exact (ih false).cons_cons c
        cases space with
        | false => exact hrest
        | true =>
            rw [squeeze_true_cons hc]
            exact hrest.cons_cons ' '

theorem squeeze_eq_self_iff (s : List Char) :
    squeeze false s = s ↔ s.IsChain NotBothSpaces ∧ s.getLast? ≠ some ' ' := by
  induction s with
  | nil => decide
  | cons c s ih =>
      by_cases hc : c = ' '
      · subst hc
        cases s with
        | nil => decide
        | cons d t =>
            by_cases hd : d = ' '
            · subst hd
              refine iff_of_false (fun heq => ?_) fun h => ?_
              · have hle := (squeeze_sublist true t).length_le
                rw [squeeze_space, squeeze_space] at heq
                rw [heq] at hle
                exact absurd hle (Nat.not_succ_le_self _)
              · exact (List.isChain_cons_cons.mp h.1).1 ⟨rfl, rfl⟩
            · have hchain : List.IsChain NotBothSpaces (' ' :: d :: t) ↔
                  (d :: t).IsChain NotBothSpaces :=
                List.isChain_cons_cons.trans (and_iff_right fun h => hd h.2)
              rw [squeeze_space, squeeze_true_cons hd, List.cons_inj_right, ih, hchain,
                List.getLast?_cons_cons]
      · have hsqueeze : squeeze false (c :: s) = c :: squeeze false s := if_neg hc
        have hchain : (c :: s).IsChain NotBothSpaces ↔ s.IsChain NotBothSpaces :=
          List.isChain_cons.trans (and_iff_right fun _ _ h => hc h.1)
        have hlast : (c :: s).getLast? = some ' ' ↔ s.getLast? = some ' ' := by
          cases s with
          | nil => simp [hc]
          | cons d t => rw [List.getLast?_cons_cons]
        rw [hsqueeze, List.cons_inj_right, ih, hchain, Ne, Ne, hlast]

/-- The pairs that come back as they were. -/
structure Entry.Kept (e : Entry) : Prop where
  key : '\x00' ∉ e.1
  value : '\x00' ∉ e.2
  not_blank : ∃ c ∈ e.2, ¬ isSpaceCharacter c
  first : ∀ c ∈ e.2.head?, c ≠ ' ' ∧ ¬ isMarkCharacter c
  spaces : e.2.IsChain NotBothSpaces
  last : e.2.getLast? ≠ some ' '

theorem beforeNul_eq_self_iff (s : List Char) : beforeNul s = s ↔ '\x00' ∉ s := by
  unfold beforeNul
  rw [List.takeWhile_eq_self_iff]
  refine ⟨fun h hin => ?_, fun h c hc => decide_eq_true ?_⟩
  · exact of_decide_eq_true (h _ hin) rfl
  · rintro rfl
    exact h hc

theorem not_mem_beforeNul (s : List Char) : '\x00' ∉ beforeNul s := by
  unfold beforeNul
  intro hin
  exact absurd (List.mem_takeWhile_imp hin) (by decide)

theorem trimStart_eq_self_iff (s : List Char) :
    trimStart s = s ↔ ∀ c ∈ s.head?, c ≠ ' ' ∧ ¬ isMarkCharacter c := by
  unfold trimStart
  cases s with
  | nil => simp
  | cons c s => simp [List.dropWhile_eq_self_iff]

/-- A text that is condensed into itself, and has no NUL. -/
theorem beforeNul_condensed_eq_self_iff (s : List Char) : beforeNul (condensed s) = s ↔
    '\x00' ∉ s ∧ (∀ c ∈ s.head?, c ≠ ' ' ∧ ¬ isMarkCharacter c) ∧ s.IsChain NotBothSpaces ∧
      s.getLast? ≠ some ' ' := by
  rw [← trimStart_eq_self_iff, ← squeeze_eq_self_iff]
  refine ⟨fun h => ?_, fun ⟨hnul, htrim, hsqueeze⟩ => ?_⟩
  · -- nothing can have been lost on the way
    have htrim : (trimStart s).Sublist s := List.dropWhile_sublist _
    have hsqueeze : (condensed s).Sublist (trimStart s) := squeeze_sublist false (trimStart s)
    have hnul : (beforeNul (condensed s)).Sublist (condensed s) := List.takeWhile_sublist _
    rw [h] at hnul
    have hcondensed : condensed s = s := (hsqueeze.trans htrim).antisymm hnul
    have htrimmed : trimStart s = s := htrim.antisymm (hnul.trans hsqueeze)
    refine ⟨?_, htrimmed, ?_⟩
    · rw [← h]
      exact not_mem_beforeNul _
    · unfold condensed at hcondensed
      rwa [htrimmed] at hcondensed
  · unfold condensed
    rw [htrim, hsqueeze]
    exact (beforeNul_eq_self_iff s).mpr hnul

theorem Entry.kept_iff (e : Entry) :
    e.Kept ↔ '\x00' ∉ e.1 ∧ beforeNul (condensed e.2) = e.2 ∧ ¬ e.Blank := by
  have hblank : trimStart e.2 = e.2 → (¬ e.Blank ↔ ∃ c ∈ e.2, ¬ isSpaceCharacter c) := by
    intro h
    unfold Blank
    rw [h, List.all_eq_true]
    simp
  rw [beforeNul_condensed_eq_self_iff]
  refine ⟨fun h => ?_, fun ⟨hkey, ⟨hvalue, hfirst, hspaces, hlast⟩, hnot⟩ => ?_⟩
  · have htrim := (trimStart_eq_self_iff e.2).mpr h.first
    exact ⟨h.key, ⟨h.value, h.first, h.spaces, h.last⟩, (hblank htrim).mpr h.not_blank⟩
  · have htrim := (trimStart_eq_self_iff e.2).mpr hfirst
    exact ⟨hkey, hvalue, (hblank htrim).mp hnot, hfirst, hspaces, hlast⟩

/-! ## The properties that come back -/

/-- The pairs of `p`, in any order. -/
def Stored (p : Properties) (es : List Entry) : Prop :=
  (es.map Entry.bytes).Perm (p.keyValue.entries.map fun e => (e.1, e.2))

theorem Stored.lookup {p : Properties} {es : List Entry} (h : Stored p es) (k v : List Byte) :
    p.keyValue.lookup k = some v ↔ (k, v) ∈ es.map Entry.bytes := by
  refine Iff.trans AList.mem_lookup_iff ?_
  rw [h.mem_iff, List.mem_map]
  refine ⟨fun hin => ⟨⟨k, v⟩, hin, rfl⟩, ?_⟩
  rintro ⟨⟨k', v'⟩, hin, heq⟩
  obtain ⟨rfl, rfl⟩ := Prod.mk.inj heq
  exact hin

theorem lookup_eq_some_mem {l : List (List Byte × List Byte)} {k v : List Byte}
    (h : l.lookup k = some v) : (k, v) ∈ l := by
  obtain ⟨l₁, l₂, rfl, -⟩ := List.lookup_eq_some_iff.mp h
  exact List.mem_append_right _ List.mem_cons_self

/-- Where a key has one value, that is what is found. -/
theorem lookup_eq_some_of_mem {l : List (List Byte × List Byte)} {k v : List Byte}
    (hone : ∀ w, (k, w) ∈ l → w = v) (hin : (k, v) ∈ l) : l.lookup k = some v := by
  cases hl : l.lookup k with
  | none =>
      have := List.lookup_eq_none_iff.mp hl (k, v) hin
      simp at this
  | some w => rw [hone w (lookup_eq_some_mem hl)]

theorem Stored.lookup_reverse {p : Properties} {es : List Entry} (h : Stored p es)
    (k : List Byte) : (es.map Entry.bytes).reverse.lookup k = p.keyValue.lookup k := by
  have hiff : ∀ v, (es.map Entry.bytes).reverse.lookup k = some v ↔
      p.keyValue.lookup k = some v := by
    intro v
    refine ⟨fun hv => (h.lookup k v).mpr (List.mem_reverse.mp (lookup_eq_some_mem hv)),
      fun hv => ?_⟩
    refine lookup_eq_some_of_mem (fun w hw => ?_) (List.mem_reverse.mpr ((h.lookup k v).mp hv))
    have hother := (h.lookup k w).mpr (List.mem_reverse.mp hw)
    exact Option.some.inj (hother.symm.trans hv)
  exact Option.ext hiff

theorem getProperty_eq_iff (p q : Properties) :
    (∀ key value, q.getProperty key value = p.getProperty key value) ↔
      ∀ key, q.keyValue.lookup key = p.keyValue.lookup key := by
  refine ⟨fun h key => ?_, fun h key value => ?_⟩
  · have hfind : ∀ (a b : Option (List Byte)) (v : List Byte),
        (∀ d, a.getD d = b.getD d) → a = some v → b = some v := by
      intro a b v hab ha
      cases b with
      | none =>
          -- the default cannot be told from `v` only if it is `v`
          have hd := hab (0 :: v)
          rw [ha] at hd
          exact absurd hd.symm (List.cons_ne_self 0 v)
      | some w =>
          have hd := hab []
          rw [ha] at hd
          exact congrArg some hd.symm
    exact Option.ext fun v => ⟨hfind _ _ v (h key), hfind _ _ v fun d => (h key d).symm⟩
  · unfold Properties.getProperty
    rw [h key]

/-- Pairs that are kept come to what there is already. -/
theorem load_kept (r : Properties) (crlf : Bool) {p : Properties} {es : List Entry}
    (hp : Stored p es) (hclean : ∀ e ∈ es, e.Clean) (hkept : ∀ e ∈ es, e.Kept) :
    ∃ q, r.loadFromXML (some (storeToXML crlf (es.map Entry.bytes))) = .ok (q, true) ∧
      ∀ key, q.keyValue.lookup key = (p.keyValue.lookup key).or (r.keyValue.lookup key) := by
  have hblank : ¬ ∃ e ∈ es, e.Blank := fun ⟨e, he, hb⟩ => (e.kept_iff.mp (hkept e he)).2.2 hb
  have hsame : es.map Entry.reloaded = es.map Entry.bytes := by
    refine List.map_congr_left fun e he => ?_
    obtain ⟨hkey, hvalue, -⟩ := e.kept_iff.mp (hkept e he)
    unfold Entry.reloaded Entry.bytes
    rw [hvalue, (beforeNul_eq_self_iff e.1).mpr hkey]
  rw [load_stored r crlf es hclean, if_neg hblank, hsame]
  refine ⟨_, rfl, fun key => ?_⟩
  rw [Properties.lookup_setProperties, hp.lookup_reverse]

/-- Where a file's pairs have gone, if it can be loaded. -/
theorem mem_of_load {crlf : Bool} {es : List Entry} {q : Properties} (hclean : ∀ e ∈ es, e.Clean)
    (hload : init.loadFromXML (some (storeToXML crlf (es.map Entry.bytes))) = .ok (q, true)) :
    (∀ e ∈ es, ¬ e.Blank) ∧ ∀ k v : List Char,
      q.keyValue.lookup (encode k) = some (encode v) →
        ∃ e ∈ es, beforeNul e.1 = k ∧ beforeNul (condensed e.2) = v := by
  rw [load_stored init crlf es hclean] at hload
  by_cases hblank : ∃ e ∈ es, e.Blank
  · rw [if_pos hblank] at hload
    exact absurd hload (by simp)
  rw [if_neg hblank] at hload
  obtain ⟨rfl, -⟩ := Prod.mk.inj (Except.ok.inj hload)
  refine ⟨fun e he hb => hblank ⟨e, he, hb⟩, fun k v hfind => ?_⟩
  rw [Properties.lookup_setProperties,
    show init.keyValue.lookup (encode k) = none from rfl, Option.or_none] at hfind
  obtain ⟨e, he, heq⟩ := List.mem_map.mp (List.mem_reverse.mp (lookup_eq_some_mem hfind))
  obtain ⟨hk, hv⟩ := Prod.mk.inj heq
  exact ⟨e, he, encode_injective hk, encode_injective hv⟩

theorem squeeze_squeeze (space : Bool) (s : List Char) :
    squeeze false (squeeze space s) = squeeze space s := by
  induction s generalizing space with
  | nil => rfl
  | cons c s ih =>
      by_cases hc : c = ' '
      · rw [hc, squeeze_space, ih]
      · have hcons : ∀ t, squeeze false (c :: t) = c :: squeeze false t := fun _ => if_neg hc
        cases space with
        | false => rw [hcons, hcons, ih]
        | true => rw [squeeze_true_cons hc, squeeze_space, hcons, squeeze_true_cons hc, hcons, ih]

theorem condensed_condensed (s : List Char) : condensed (condensed s) = condensed s := by
  have htrim : trimStart (condensed s) = condensed s := by
    have hfirst := (trimStart_eq_self_iff (trimStart s)).mp (trimStart_trimStart s)
    unfold condensed
    rw [trimStart_eq_self_iff]
    cases ht : trimStart s with
    | nil => exact fun c hc => absurd hc (by simp [squeeze])
    | cons c t =>
        rw [ht] at hfirst
        have hsqueeze : squeeze false (c :: t) = c :: squeeze false t :=
          if_neg (hfirst c rfl).1
        rw [hsqueeze]
        exact hfirst
  have hsame : condensed (condensed s) = squeeze false (trimStart (condensed s)) := rfl
  rw [hsame, htrim]
  exact squeeze_squeeze false (trimStart s)

/-- What has no spaces is not put together by taking spaces out. -/
theorem prefix_of_prefix_squeeze {l : List Char} (hl : ' ' ∉ l) {s : List Char}
    (h : l <+: squeeze false s) : l <+: s := by
  have htrue : ∀ s, ∀ c ∈ (squeeze true s).head?, c = ' ' := by
    intro s
    induction s with
    | nil => exact fun c hc => absurd hc (by simp [squeeze])
    | cons c s ih =>
        by_cases hc : c = ' '
        · rwa [hc, squeeze_space]
        · rw [squeeze_true_cons hc]
          exact fun d hd => (Option.some.inj hd).symm
  induction l generalizing s with
  | nil => exact List.nil_prefix
  | cons a l ih =>
      obtain ⟨ha, hl⟩ := not_or.mp fun hin => hl (List.mem_cons.mpr hin)
      cases s with
      | nil => exact h
      | cons c s =>
          by_cases hc : c = ' '
          · rw [hc, squeeze_space] at h
            obtain ⟨t, ht⟩ := h
            exact absurd (htrue s a (by rw [← ht]; rfl)) (Ne.symm ha)
          · have hsqueeze : squeeze false (c :: s) = c :: squeeze false s := if_neg hc
            rw [hsqueeze, List.cons_prefix_cons] at h
            exact List.cons_prefix_cons.mpr ⟨h.1, ih hl h.2⟩

theorem infix_of_infix_squeeze {l : List Char} (hl : ' ' ∉ l) (hne : l ≠ []) {space : Bool}
    {s : List Char} (h : l <:+: squeeze space s) : l <:+: s := by
  induction s generalizing space with
  | nil => exact h
  | cons c s ih =>
      by_cases hc : c = ' '
      · rw [hc, squeeze_space] at h
        exact (ih h).trans (List.suffix_cons c s).isInfix
      · have hplain : l <:+: squeeze false (c :: s) → l <:+: c :: s := by
          intro h
          have hsqueeze : squeeze false (c :: s) = c :: squeeze false s := if_neg hc
          rw [hsqueeze] at h
          rcases List.infix_cons_iff.mp h with hpre | hin
          · rw [← hsqueeze] at hpre
            exact (prefix_of_prefix_squeeze hl hpre).isInfix
          · exact (ih hin).trans (List.suffix_cons c s).isInfix
        cases space with
        | false => exact hplain h
        | true =>
            rw [squeeze_true_cons hc] at h
            rcases List.infix_cons_iff.mp h with hpre | hin
            · obtain ⟨a, l, rfl⟩ := List.exists_cons_of_ne_nil hne
              rw [(List.cons_prefix_cons.mp hpre).1] at hl
              exact absurd List.mem_cons_self hl
            · exact hplain hin

theorem not_mem_condensed {c : Char} {s : List Char} (h : c ∉ s) : c ∉ condensed s := fun hin =>
  h (((squeeze_sublist false (trimStart s)).trans (List.dropWhile_sublist _)).mem hin)

theorem NoReference.condensed {s : List Char} (h : NoReference s) :
    NoReference (Config.condensed s) := fun hin =>
  h ((infix_of_infix_squeeze (by decide) (by decide) hin).trans (List.dropWhile_suffix _).isInfix)

end NanomsgDemo.Config

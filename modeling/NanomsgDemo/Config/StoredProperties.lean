import NanomsgDemo.Config.Escapes
import NanomsgDemo.Config.Properties

/-!
# Properties that are stored and loaded

What `loadFromXML` makes of a file that `storeToXML` has written, for keys and values in
Unicode without `&#x`. The key is an attribute and comes back as it was; a value is the
text of an element, where TinyXml condenses white space, and does not make a node at all
of a text that is blank. `loadFromXML` does not expect an element without one.
-/

namespace NanomsgDemo.Config

open Net (Byte chr text)

/-! ## The text of a file -/

/-- A text as it is written. -/
def put (s : List Char) : List Byte := s.flatMap putCharacter

/-- The quotes around a key. -/
def quoteOf (k : List Char) : Byte := if (0x22 : Byte) ∈ encode k then 0x27 else 0x22

theorem quoteOf_eq (k : List Char) : quoteOf k = 0x22 ∨ quoteOf k = 0x27 := by
  unfold quoteOf
  split
  · exact Or.inr rfl
  · exact Or.inl rfl

/-- A pair of texts. -/
abbrev Entry := List Char × List Char

def Entry.bytes (e : Entry) : List Byte × List Byte := (encode e.1, encode e.2)

/-- No `&#x` in the key or the value. -/
def Entry.Clean (e : Entry) : Prop := NoReference e.1 ∧ NoReference e.2

instance (e : Entry) : Decidable e.Clean := inferInstanceAs (Decidable (_ ∧ _))

/-- The element of a pair, as it is written. -/
def Entry.written (e : Entry) : List Byte :=
  text "<entry key=" ++ quoteOf e.1 :: (put e.1 ++ quoteOf e.1 :: (text ">" ++
    (put e.2 ++ text "</entry>")))

def header : List Byte :=
  text "<?xml version=\"1.0\" encoding=\"UTF-8\"?>\n" ++
    (text "<!DOCTYPE properties SYSTEM \"http://java.sun.com/dtd/properties.dtd\">\n" ++
      (text "<!--This file is created by libproperties-->\n" ++
        text "<!--read more from http://code.google.com/p/libproperties-->\n"))

def root (es : List Entry) : List Byte :=
  if es = [] then text "<properties />"
  else text "<properties>" ++ ((es.flatMap fun e => text "\n    " ++ e.written) ++
    text "\n</properties>")

theorem put_printable (s : List Char) : ∀ b ∈ put s, 32 ≤ b.toNat := by
  intro b hb
  obtain ⟨c, -, hc⟩ := List.mem_flatMap.mp hb
  by_cases ha : c.toNat < 128
  · have hall : ∀ n : Fin 128,
        (putChar (UInt8.ofNat n)).all (fun b => 32 ≤ b.toNat) = true := by decide
    rw [putCharacter_ascii ha] at hc
    exact of_decide_eq_true (List.all_eq_true.mp (hall ⟨c.toNat, ha⟩) b hc)
  · obtain ⟨lead, more, hm⟩ := exists_multibyte (c := c) (by omega)
    rw [hm.putCharacter] at hc
    have := hm.high b hc
    omega

theorem cStr_put {s : List Char} (h : NoReference s) :
    cStr (putString false (encode s)) = put s := by
  rw [putString_encode h]
  refine List.takeWhile_eq_self_iff.mpr fun b hb => decide_eq_true ?_
  rintro rfl
  exact absurd (put_printable s 0 hb) (by decide)

/-- The element of a pair in the document that is stored. -/
def Entry.stored (e : Entry) : Node :=
  .element (text "entry") [(text "key", encode e.1)] [.text (encode e.2) false]

theorem printNode_stored {e : Entry} (h : e.Clean) :
    printNode 1 e.stored = text "    " ++ e.written := by
  have hkey : printAttribute (text "key", encode e.1) =
      text "key=" ++ quoteOf e.1 :: (put e.1 ++ [quoteOf e.1]) := by
    unfold printAttribute
    simp only [cStr_put h.1]
    show text "key" ++ text "=" ++ [quoteOf e.1] ++ put e.1 ++ [quoteOf e.1] = _
    simp only [List.append_assoc, List.singleton_append]
    rfl
  have hvalue : printNode 2 (.text (encode e.2) false) = put e.2 := cStr_put h.2
  show indent 1 ++ text "<" ++ cStr (text "entry") ++
    ([(text "key", encode e.1)].flatMap fun a => text " " ++ printAttribute a) ++
    (text ">" ++ printNode 2 (.text (encode e.2) false) ++ text "</" ++ cStr (text "entry") ++
      text ">") = _
  rw [hvalue, List.flatMap_singleton, hkey]
  unfold Entry.written
  simp only [List.append_assoc, List.cons_append]
  rfl

theorem printNodes_stored {es : List Entry} (h : ∀ e ∈ es, e.Clean) :
    printNodes 1 (es.map Entry.stored) = es.flatMap fun e => text "\n    " ++ e.written := by
  induction es with
  | nil => rfl
  | cons e es ih =>
      show text "\n" ++ printNode 1 e.stored ++ printNodes 1 (es.map Entry.stored) = _
      rw [printNode_stored (h e List.mem_cons_self),
        ih fun f hf => h f (List.mem_cons_of_mem e hf), List.flatMap_cons]
      rfl

set_option maxRecDepth 2000 in
theorem printDocument_stored {es : List Entry} (h : ∀ e ∈ es, e.Clean) :
    printDocument (Properties.document (es.map Entry.bytes)) =
      header ++ (root es ++ text "\n") := by
  have hroot : printNode 0 (.element (text "properties") [] (es.map Entry.stored)) = root es := by
    cases es with
    | nil => rfl
    | cons e es =>
        show text "<properties>" ++ printNodes 1 ((e :: es).map Entry.stored) ++ text "\n" ++
          indent 0 ++ text "</" ++ text "properties" ++ text ">" = _
        rw [printNodes_stored h]
        unfold root
        rw [if_neg (List.cons_ne_nil e es)]
        simp only [List.append_assoc]
        rfl
  have hchildren : (es.map Entry.bytes).map (fun e => Node.element (text "entry")
      [(text "key", e.1)] [.text e.2 false]) = es.map Entry.stored := List.map_map
  unfold printDocument Properties.document
  rw [hchildren]
  simp only [List.flatMap_cons, List.flatMap_nil, hroot, List.append_nil]
  rfl

/-- The line breaks of what is written as text come back, whatever the system makes of them. -/
theorem normalize_write (crlf : Bool) {l : List Byte} (hl : ∀ b ∈ l, b ≠ 0 ∧ b ≠ 13) :
    normalize (TextStreams.write crlf l) = l := by
  have hplain : ∀ {b : Byte} {t : List Byte}, b ≠ 0 → b ≠ 13 →
      normalize (b :: t) = b :: normalize t := by
    intro b t h0 h13
    rw [normalize.eq_def]
    split
    · rename_i heq
      exact absurd heq (List.cons_ne_nil b t)
    · rename_i heq
      exact absurd (List.cons.inj heq).1 h13
    · rename_i heq
      obtain ⟨rfl, rfl⟩ := List.cons.inj heq
      rw [if_neg h0, if_neg h13]
  induction l with
  | nil => rfl
  | cons b l ih =>
      have hrest := ih fun c hc => hl c (List.mem_cons_of_mem b hc)
      obtain ⟨h0, h13⟩ := hl b List.mem_cons_self
      rw [TextStreams.write_cons]
      split
      · rename_i hbreak
        rw [hbreak.2]
        show 10 :: normalize (TextStreams.write crlf l) = _
        rw [hrest]
      · rw [List.singleton_append, hplain h0 h13, hrest]

theorem printed_of_all {l : List Byte} (h : l.all (fun b => b ≠ 0 ∧ b ≠ 13) = true) :
    ∀ b ∈ l, b ≠ 0 ∧ b ≠ 13 := fun b hb => of_decide_eq_true (List.all_eq_true.mp h b hb)

set_option maxRecDepth 2000 in
theorem printed_bytes {es : List Entry} :
    ∀ b ∈ header ++ (root es ++ text "\n"), b ≠ 0 ∧ b ≠ 13 := by
  have hput : ∀ s : List Char, ∀ b ∈ put s, b ≠ 0 ∧ b ≠ 13 := by
    intro s b hb
    have hle := put_printable s b hb
    refine ⟨?_, ?_⟩
    · rintro rfl
      exact absurd hle (by decide)
    · rintro rfl
      exact absurd hle (by decide)
  have hquote : ∀ k : List Char, quoteOf k ≠ 0 ∧ quoteOf k ≠ 13 := by
    intro k
    rcases quoteOf_eq k with h | h <;> rw [h] <;> decide
  have happend : ∀ l m : List Byte, (∀ b ∈ l, b ≠ 0 ∧ b ≠ 13) → (∀ b ∈ m, b ≠ 0 ∧ b ≠ 13) →
      ∀ b ∈ l ++ m, b ≠ 0 ∧ b ≠ 13 := fun l m hl hm => List.forall_mem_append.mpr ⟨hl, hm⟩
  have hwritten : ∀ e : Entry, ∀ b ∈ e.written, b ≠ 0 ∧ b ≠ 13 := by
    intro e
    refine happend _ _ (printed_of_all rfl) (List.forall_mem_cons.mpr ⟨hquote e.1, ?_⟩)
    refine happend _ _ (hput e.1) (List.forall_mem_cons.mpr ⟨hquote e.1, ?_⟩)
    exact happend _ _ (printed_of_all rfl) (happend _ _ (hput e.2) (printed_of_all rfl))
  refine happend _ _ (printed_of_all rfl) (happend _ _ ?_ (printed_of_all rfl))
  unfold root
  split
  · exact printed_of_all rfl
  · refine happend _ _ (printed_of_all rfl) (happend _ _ ?_ (printed_of_all rfl))
    intro b hb
    obtain ⟨e, -, he⟩ := List.mem_flatMap.mp hb
    exact happend _ _ (printed_of_all rfl) (hwritten e) b he

/-! ## The document that is read -/

/-- What is read of a value: nothing, if it is blank. -/
def valueNodes (v : List Char) : List Node :=
  if blank (encode (condensed v)) then [] else [.text (encode (condensed v)) false]

/-- The element of a pair in the document that is loaded. -/
def Entry.loaded (e : Entry) : Node :=
  .element (text "entry") [(text "key", encode e.1)] (valueNodes e.2)

theorem trimStart_trimStart (s : List Char) : trimStart (trimStart s) = trimStart s :=
  List.dropWhile_eq_self_iff.mpr (List.dropWhile_get_zero_not _ s)

/-- `ReadValue` of a value and the end tag after it. -/
theorem readValue_value (v : List Char) (rest : List Byte) (n : Nat) :
    readValue .utf8 (n + 2) (.at (put v ++ (text "</" ++ rest))) =
      .ok ⟨valueNodes v, .at (text "</" ++ rest), false⟩ := by
  have hskip : skipWhiteSpace .utf8 (.at (put v ++ (text "</" ++ rest))) =
      .ok (.at (put (trimStart v) ++ (text "</" ++ rest))) := by
    have hput := skipWhite_put v (0x2F :: rest)
    unfold put
    cases hv : v.flatMap putCharacter with
    | nil =>
        rw [hv] at hput
        exact congrArg (fun l => Except.ok (Ptr.at l)) hput
    | cons b l =>
        rw [hv] at hput
        exact congrArg (fun l => Except.ok (Ptr.at l)) hput
  unfold readValue
  rw [hskip]
  cases hs : trimStart v with
  | nil =>
      have hcondensed : condensed v = [] := by
        unfold condensed
        rw [hs]
        rfl
      have hnodes : valueNodes v = [] := by
        unfold valueNodes
        rw [hcondensed]
        rfl
      rw [hnodes]
      rfl
  | cons c s =>
      obtain ⟨b, l, hcode, -⟩ := (code_putCharacter c).reads (put s ++ (text "</" ++ rest))
      obtain ⟨-, -, hlt⟩ := (code_putCharacter c).head _ _ _ hcode
      have hbytes : put (c :: s) ++ (text "</" ++ rest) = b :: l := by
        unfold put at hcode ⊢
        rw [List.flatMap_cons, List.append_assoc, hcode]
      have htext : parseText .utf8 (b :: l) =
          .ok ⟨encode (condensed v), .at (text "</" ++ rest), false⟩ := by
        have hread := readText_condensed (c :: s) (0x2F :: rest)
        rw [← hs] at hread
        have hsame : condensed (trimStart v) = condensed v := by
          unfold condensed
          rw [trimStart_trimStart]
        rw [hsame, hs] at hread
        unfold parseText
        rw [← hbytes]
        show (readText .utf8 (.at ((c :: s).flatMap putCharacter ++ 0x3C :: 0x2F :: rest)) true
          (text "<") >>= _) = _
        rw [hread]
        rfl
      rw [hbytes]
      show (if b ≠ (0x3C : Byte) then _ else _) = _
      rw [if_pos hlt, htext]
      show (Except.ok (Parsed.mk ((if blank (encode (condensed v)) then [] else
        [Node.text (encode (condensed v)) false]) ++ []) _ _) : Run _) = _
      rw [List.append_nil]
      rfl

/-- The attribute of an element. -/
theorem parseAttribute_key {q : Byte} (hq : q = 0x22 ∨ q = 0x27) (k : List Char)
    (rest : List Byte) :
    parseAttribute .utf8 (.at (text "key=" ++ q :: (put k ++ q :: rest))) true =
      .ok ⟨(text "key", encode k), .at rest, false⟩ := by
  have hread := readText_quoted hq k rest
  rcases hq with rfl | rfl
  all_goals
    show (readText .utf8 (.at (k.flatMap putCharacter ++ _ :: rest)) false [_] >>= _) = _
    rw [hread]
    rfl

/-- An entry is read as it was written, but for its value. -/
theorem parseNode_entry (e : Entry) (rest : List Byte) (n : Nat) :
    parseNode .utf8 (n + 6) (e.written ++ rest) = .ok ⟨e.loaded, .at rest, false⟩ := by
  have hattribute := parseAttribute_key (quoteOf_eq e.1) e.1
    (text ">" ++ (put e.2 ++ (text "</" ++ (text "entry>" ++ rest))))
  have hvalue := readValue_value e.2 (text "entry>" ++ rest) n
  have hwritten : e.written ++ rest = text "<entry " ++ (text "key=" ++ quoteOf e.1 ::
      (put e.1 ++ quoteOf e.1 :: (text ">" ++ (put e.2 ++ (text "</" ++
        (text "entry>" ++ rest)))))) := by
    unfold Entry.written
    simp only [List.append_assoc, List.cons_append]
    rfl
  rw [hwritten]
  show parseAttributes .utf8 (n + 4) (text "entry") [] (.at (text " " ++ (text "key=" ++ _))) = _
  unfold parseAttributes
  show (parseAttribute .utf8 (.at (text "key=" ++ _)) true >>= _) = _
  rw [hattribute]
  show parseAttributes .utf8 (n + 3) (text "entry") [(text "key", encode e.1)]
    (.at (text ">" ++ _)) = _
  unfold parseAttributes
  show (readValue .utf8 (n + 2)
    (.at (put e.2 ++ (text "</" ++ (text "entry>" ++ rest)))) >>= _) = _
  rw [hvalue]
  rfl

/-- So are all entries, one after the other. -/
theorem readValue_entries (es : List Entry) (rest : List Byte) {fuel : Nat}
    (hf : es.length + 7 ≤ fuel) :
    readValue .utf8 fuel
        (.at ((es.flatMap fun e => text "\n    " ++ e.written) ++ (text "\n</" ++ rest))) =
      .ok ⟨es.map Entry.loaded, .at (text "</" ++ rest), false⟩ := by
  induction es generalizing fuel with
  | nil =>
      obtain ⟨n, rfl⟩ := Nat.exists_eq_add_of_le' (Nat.le_trans (by decide : 1 ≤ 7) hf)
      unfold readValue
      rfl
  | cons e es ih =>
      rw [List.length_cons] at hf
      obtain ⟨n, rfl⟩ : ∃ n, fuel = n + 6 + 1 := ⟨fuel - 7, by omega⟩
      have hentry := parseNode_entry e
        ((es.flatMap fun e => text "\n    " ++ e.written) ++ (text "\n</" ++ rest)) n
      rw [List.flatMap_cons, List.append_assoc, List.append_assoc]
      unfold readValue
      show (parseNode .utf8 (n + 6) (e.written ++ _) >>= _) = _
      rw [hentry]
      show (readValue .utf8 (n + 6) _ >>= _) = _
      rw [ih (by omega)]
      rfl

theorem parseNode_declaration (rest : List Byte) (n : Nat) :
    parseNode .unknown (n + 1) (text "<?xml version=\"1.0\" encoding=\"UTF-8\"?>" ++ rest) =
      .ok ⟨.declaration (text "1.0") (text "UTF-8") [], .at rest, false⟩ := rfl

theorem parseNode_doctype (rest : List Byte) (n : Nat) :
    parseNode .utf8 (n + 1) (text
        "<!DOCTYPE properties SYSTEM \"http://java.sun.com/dtd/properties.dtd\">" ++ rest) =
      .ok ⟨.unknown (text "!DOCTYPE properties SYSTEM \"http://java.sun.com/dtd/properties.dtd\""),
        .at rest, false⟩ := rfl

theorem parseNode_comment1 (rest : List Byte) (n : Nat) :
    parseNode .utf8 (n + 1) (text "<!--This file is created by libproperties-->" ++ rest) =
      .ok ⟨.comment (text "This file is created by libproperties"), .at rest, false⟩ := rfl

set_option maxRecDepth 2000 in
theorem parseNode_comment2 (rest : List Byte) (n : Nat) :
    parseNode .utf8 (n + 1)
        (text "<!--read more from http://code.google.com/p/libproperties-->" ++ rest) =
      .ok ⟨.comment (text "read more from http://code.google.com/p/libproperties"),
        .at rest, false⟩ := rfl

theorem parseNode_root (es : List Entry) {fuel : Nat} (hf : es.length + 10 ≤ fuel) :
    parseNode .utf8 fuel (root es ++ text "\n") =
      .ok ⟨.element (text "properties") [] (es.map Entry.loaded), .at (text "\n"), false⟩ := by
  obtain ⟨n, rfl⟩ := Nat.exists_eq_add_of_le' (Nat.le_trans (Nat.le_add_left 10 _) hf)
  cases es with
  | nil => rfl
  | cons e es =>
      have hfuel : (e :: es).length + 7 ≤ n + 7 := by omega
      have hvalue := readValue_entries (e :: es) (text "properties>\n") hfuel
      have hroot : root (e :: es) ++ text "\n" = text "<properties>" ++
          (((e :: es).flatMap fun e => text "\n    " ++ e.written) ++
            (text "\n</" ++ text "properties>\n")) := by
        unfold root
        rw [if_neg (List.cons_ne_nil e es)]
        simp only [List.append_assoc]
        rfl
      rw [hroot]
      show parseAttributes .utf8 (n + 8) (text "properties") [] (.at (text ">" ++ _)) = _
      unfold parseAttributes
      show (readValue .utf8 (n + 7) (.at (((e :: es).flatMap fun e => text "\n    " ++ e.written) ++
        (text "\n</" ++ text "properties>\n"))) >>= _) = _
      rw [hvalue]
      rfl

/-- The document that is loaded. -/
def loadedNodes (es : List Entry) : List Node :=
  [.declaration (text "1.0") (text "UTF-8") [],
    .unknown (text "!DOCTYPE properties SYSTEM \"http://java.sun.com/dtd/properties.dtd\""),
    .comment (text "This file is created by libproperties"),
    .comment (text "read more from http://code.google.com/p/libproperties"),
    .element (text "properties") [] (es.map Entry.loaded)]

/-- One node of a document. -/
theorem parseNodes_cons {enc : TiXmlEncoding} {n : Nat} {l rest : List Byte} {node : Node} {p : Ptr}
    {v : Parsed (List Node)} (hnode : parseNode enc n (0x3C :: l) = .ok ⟨node, .at rest, false⟩)
    (hskip : skipWhiteSpace (encodingAfter enc node) (.at rest) = .ok p)
    (hrest : parseNodes n (encodingAfter enc node) p = .ok v) :
    parseNodes (n + 1) enc (.at (0x3C :: l)) = .ok ⟨node :: v.node, v.next, v.error⟩ := by
  show (parseNode enc n (0x3C :: l) >>= _) = _
  rw [hnode]
  show (skipWhiteSpace (encodingAfter enc node) (.at rest) >>= _) = _
  rw [hskip]
  show (parseNodes n (encodingAfter enc node) p >>= _) = _
  rw [hrest]
  rfl

theorem length_le_entries (es : List Entry) :
    es.length ≤ (es.flatMap fun e => text "\n    " ++ e.written).length := by
  induction es with
  | nil => exact Nat.le_refl 0
  | cons e es ih =>
      have hpos : 0 < (text "\n    " ++ e.written).length := Nat.succ_pos _
      rw [List.flatMap_cons, List.length_append, List.length_cons]
      omega

theorem length_le_root (es : List Entry) : es.length ≤ (root es).length := by
  unfold root
  split
  · rename_i hnil
    rw [hnil]
    exact Nat.zero_le _
  · have := length_le_entries es
    simp only [List.length_append]
    omega

set_option maxRecDepth 2000 in
theorem parseDocument_stored (es : List Entry) :
    parseDocument (header ++ (root es ++ text "\n")) = .ok (loadedNodes es, false) := by
  have hlen := length_le_root es
  obtain ⟨n, hn, hes⟩ : ∃ n, 4 * (header ++ (root es ++ text "\n")).length + 4 = n + 6 ∧
      es.length + 10 ≤ n + 1 := by
    refine ⟨4 * (header ++ (root es ++ text "\n")).length - 2, ?_, ?_⟩ <;>
      rw [List.length_append, List.length_append, show header.length = 215 from rfl] <;> omega
  have hend : parseNodes (n + 1) .utf8 (.at []) = .ok ⟨[], .at [], false⟩ := rfl
  obtain ⟨l, hl⟩ : ∃ l, root es ++ text "\n" = 0x3C :: l := by
    unfold root
    split
    · exact ⟨_, rfl⟩
    · exact ⟨_, rfl⟩
  have hroot : parseNodes (n + 2) .utf8 (.at (root es ++ text "\n")) =
      .ok ⟨[.element (text "properties") [] (es.map Entry.loaded)], .at [], false⟩ := by
    have hnode := parseNode_root es hes
    rw [hl] at hnode ⊢
    exact parseNodes_cons hnode rfl hend
  have hskip : skipWhiteSpace .utf8 (.at (text "\n" ++ (root es ++ text "\n"))) =
      .ok (.at (root es ++ text "\n")) := by
    rw [hl]
    rfl
  have hcomment2 := parseNodes_cons (parseNode_comment2 (text "\n" ++ (root es ++ text "\n"))
    (n + 1)) hskip hroot
  let comment2 := text "<!--read more from http://code.google.com/p/libproperties-->" ++
    (text "\n" ++ (root es ++ text "\n"))
  have hcomment1 := parseNodes_cons (parseNode_comment1 (text "\n" ++ comment2) (n + 2)) rfl
    hcomment2
  let comment1 := text "<!--This file is created by libproperties-->" ++ (text "\n" ++ comment2)
  have hdoctype := parseNodes_cons (parseNode_doctype (text "\n" ++ comment1) (n + 3)) rfl
    hcomment1
  let doctype := text "<!DOCTYPE properties SYSTEM \"http://java.sun.com/dtd/properties.dtd\">" ++
    (text "\n" ++ comment1)
  have hdeclaration := parseNodes_cons (parseNode_declaration (text "\n" ++ doctype) (n + 4)) rfl
    hdoctype
  have hne : header ++ (root es ++ text "\n") ≠ [] :=
    List.append_ne_nil_of_left_ne_nil (by decide) _
  unfold parseDocument
  rw [if_neg hne, hn]
  show (parseNodes (n + 6) .unknown (.at (header ++ (root es ++ text "\n"))) >>= _) = _
  rw [show parseNodes (n + 6) .unknown (.at (header ++ (root es ++ text "\n"))) =
    .ok ⟨loadedNodes es, .at [], false⟩ from hdeclaration]
  rfl

end NanomsgDemo.Config

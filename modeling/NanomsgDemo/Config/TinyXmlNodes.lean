import NanomsgDemo.Config.TinyXml
import NanomsgDemo.Lib.TextStreams

/-!
# Documents

The nodes of TinyXml, how a document is parsed (`TiXmlDocument::LoadFile` and the `Parse`
of each class), and how it is printed (`SaveFile` and the `Print` of each class).

Each `Parse` returns where it has stopped. It has linked its node by then, with whatever
it has found; that something was wrong is noted in the document, if it is noted at all.
-/

namespace NanomsgDemo.Config

open Net (Byte chr text)

/-- A `TiXmlNode` other than a document. -/
inductive Node where
  | declaration (version encoding standalone : List Byte)
  /-- `TiXmlDeclarationWithoutStandalone`, which is made by hand only. -/
  | declarationWithoutStandalone (version encoding : List Byte)
  /-- `TiXmlDoctype`, as well. -/
  | doctype (value : List Byte)
  | comment (value : List Byte)
  | unknown (value : List Byte)
  | text (value : List Byte) (cdata : Bool)
  | element (value : List Byte) (attributes : List (List Byte × List Byte))
      (children : List Node)

/-- `TiXmlNode::value`. -/
def Node.value : Node → List Byte
  | declaration _ _ _ => []
  | declarationWithoutStandalone _ _ => []
  | doctype v => v
  | comment v => v
  | unknown v => v
  | text v _ => v
  | element v _ _ => v

/-! ## Parsing -/

/-- A result of `Parse`: what there is of it, where it has stopped, and whether an error is set. -/
structure Parsed (α : Type) where
  node : α
  next : Ptr
  error : Bool

/-- `TiXmlAttribute::Parse`. It notes an error in its document, if it has one. -/
def parseAttribute (enc : TiXmlEncoding) (p : Ptr) (document : Bool) :
    Run (Parsed (List Byte × List Byte)) := do
  let l ← (← skipWhiteSpace enc p).chars
  if l = [] then return ⟨([], []), .null, false⟩
  let (name, p) := readName l
  if (← p.chars) = [] then return ⟨(name, []), .null, document⟩
  match ← (← skipWhiteSpace enc p).chars with
  | [] => return ⟨(name, []), .null, document⟩
  | c :: l =>
      if c ≠ chr '=' then return ⟨(name, []), .null, document⟩
      match ← (← skipWhiteSpace enc (.at l)).chars with
      | [] => return ⟨(name, []), .null, document⟩
      | q :: l =>
          if q = 0x27 ∨ q = 0x22 then
            let (value, p) ← readText enc (.at l) false [q]
            return ⟨(name, value), p.add 1, false⟩
          else
            let inside (c : Byte) : Bool := !isWhiteSpace c && c ≠ chr '/' && c ≠ chr '>'
            return ⟨(name, (q :: l).takeWhile inside), .at ((q :: l).dropWhile inside), false⟩

/-- The loop of `TiXmlDeclaration::Parse`. The attributes belong to no document. -/
def parseDeclarationLoop (enc : TiXmlEncoding) : Nat → (version encoding standalone : List Byte) →
    Ptr → Run (Parsed Node)
  | 0, _, _, _, _ => .error .outOfFuel
  | fuel + 1, version, encoding, standalone, p => do
      let node := Node.declaration version encoding standalone
      match ← p.chars with
      | [] => return ⟨node, .null, false⟩
      | c :: l =>
          if c = chr '>' then return ⟨node, .at l, false⟩
          let l ← (← skipWhiteSpace enc (.at (c :: l))).chars
          if stringEqualIgnoreCase l (text "version") then
            let a ← parseAttribute enc (.at l) false
            parseDeclarationLoop enc fuel (cStr a.node.2) encoding standalone a.next
          else if stringEqualIgnoreCase l (text "encoding") then
            let a ← parseAttribute enc (.at l) false
            parseDeclarationLoop enc fuel version (cStr a.node.2) standalone a.next
          else if stringEqualIgnoreCase l (text "standalone") then
            let a ← parseAttribute enc (.at l) false
            parseDeclarationLoop enc fuel version encoding (cStr a.node.2) a.next
          else
            parseDeclarationLoop enc fuel version encoding standalone
              (.at (l.dropWhile fun c => c ≠ chr '>' && !isWhiteSpace c))

/-- `TiXmlDeclaration::Parse` at `l`, which `Identify` has seen. -/
def parseDeclaration (enc : TiXmlEncoding) (l : List Byte) : Run (Parsed Node) :=
  parseDeclarationLoop enc (l.length + 1) [] [] [] (.at (l.drop 5))

/-- `TiXmlComment::Parse`. -/
def parseComment (enc : TiXmlEncoding) (l : List Byte) : Run (Parsed Node) := do
  let (value, p) ← readText enc (.at (l.drop 4)) false (text "-->")
  return ⟨.comment value, p.add 3, false⟩

/-- `TiXmlUnknown::Parse`. -/
def parseUnknown (l : List Byte) : Parsed Node :=
  let outside (c : Byte) : Bool := c ≠ chr '>'
  let rest := (l.drop 1).dropWhile outside
  ⟨.unknown ((l.drop 1).takeWhile outside), .at (rest.drop 1), false⟩

/-- The loop of `TiXmlText::Parse` for `CDATA`, up to `]]>`. -/
def readCdata : List Byte → List Byte × List Byte
  | [] => ([], [])
  | c :: l =>
      if stringEqual (c :: l) (text "]]>") then ([], c :: l)
      else
        let (value, rest) := readCdata l
        (c :: value, rest)

/-- `TiXmlText::Parse` of a node made for `CDATA`. -/
def parseCdata (l : List Byte) : Parsed Node :=
  let (value, rest) := readCdata (l.drop 9)
  ⟨.text value true, (Ptr.at rest).add 3, false⟩

/-- `TiXmlText::Parse` of any other, which takes back the length of the end tag. -/
def parseText (enc : TiXmlEncoding) (l : List Byte) : Run (Parsed (List Byte)) := do
  let (value, p) ← readText enc (.at l) true (text "<")
  return ⟨value, p, false⟩

/-- `TiXmlText::Blank`. -/
def blank (value : List Byte) : Bool := value.all isWhiteSpace

/-- What `TiXmlNode::Identify` takes a tag for. -/
inductive Kind where
  | declaration
  | comment
  | cdata
  | unknown
  | element
  deriving DecidableEq, Repr

/-- `TiXmlNode::Identify` at a `<`. -/
def identify (l : List Byte) : Kind :=
  if stringEqualIgnoreCase l (text "<?xml") then .declaration
  else if stringEqual l (text "<!--") then .comment
  else if stringEqual l (text "<![CDATA[") then .cdata
  else if stringEqual l (text "<!") then .unknown
  else if ((l.drop 1).head?.map isNameStart).getD false then .element
  else .unknown

mutual

/-- `Parse` of the node that has been identified. -/
def parseNode (enc : TiXmlEncoding) : Nat → List Byte → Run (Parsed Node)
  | 0, _ => .error .outOfFuel
  | fuel + 1, l =>
      match identify l with
      | .declaration => parseDeclaration enc l
      | .comment => parseComment enc l
      | .cdata => return parseCdata l
      | .unknown => return parseUnknown l
      | .element => parseElement enc fuel l

/-- `TiXmlElement::Parse` at a `<`. -/
def parseElement (enc : TiXmlEncoding) : Nat → List Byte → Run (Parsed Node)
  | 0, _ => .error .outOfFuel
  | fuel + 1, l => do
      let (name, p) := readName (← (← skipWhiteSpace enc ((Ptr.at l).add 1)).chars)
      if (← p.chars) = [] then return ⟨.element name [] [], .null, true⟩
      else parseAttributes enc fuel name [] p

/-- Its loop, when the attributes `attributes` have been read. -/
def parseAttributes (enc : TiXmlEncoding) : Nat → (name : List Byte) →
    (attributes : List (List Byte × List Byte)) → Ptr → Run (Parsed Node)
  | 0, _, _, _ => .error .outOfFuel
  | fuel + 1, name, attributes, p => do
      match ← (← skipWhiteSpace enc p).chars with
      | [] => return ⟨.element name attributes [], .null, true⟩
      | c :: l =>
          if c = chr '/' then
            if stringEqual l (text ">") then
              return ⟨.element name attributes [], .at (l.drop 1), false⟩
            else return ⟨.element name attributes [], .null, true⟩
          else if c = chr '>' then do
            let v ← readValue enc fuel (.at l)
            let node := Node.element name attributes v.node
            let endTag := text "</" ++ name ++ text ">"
            match ← v.next.chars with
            | [] => return ⟨node, .null, v.error⟩
            | c :: l =>
                if stringEqual (c :: l) endTag then
                  return ⟨node, .at ((c :: l).drop endTag.length), v.error⟩
                else return ⟨node, .null, true⟩
          else do
            let a ← parseAttribute enc (.at (c :: l)) true
            if (← a.next.chars) = [] then return ⟨.element name attributes [], .null, true⟩
            else if (attributes.map Prod.fst).contains a.node.1 then
              -- the value is set, and nothing is said
              return ⟨.element name (attributes.map fun b =>
                if b.1 = a.node.1 then (b.1, cStr a.node.2) else b) [], .null, false⟩
            else parseAttributes enc fuel name (attributes ++ [a.node]) a.next

/-- `TiXmlElement::ReadValue`. -/
def readValue (enc : TiXmlEncoding) : Nat → Ptr → Run (Parsed (List Node))
  | 0, _ => .error .outOfFuel
  | fuel + 1, p => do
      let p ← skipWhiteSpace enc p
      match ← p.chars with
      | [] => return ⟨[], p, p = .null⟩    -- white space at the end is no error
      | c :: l =>
          if c ≠ chr '<' then do
            let t ← parseText enc (c :: l)
            let v ← readValue enc fuel t.next
            return { v with node := (if blank t.node then [] else [.text t.node false]) ++ v.node }
          else if stringEqual (c :: l) (text "</") then return ⟨[], .at (c :: l), false⟩
          else do
            let n ← parseNode enc fuel (c :: l)
            let v ← readValue enc fuel n.next
            return ⟨n.node :: v.node, v.next, n.error || v.error⟩

end

/-- The encoding after a node has been read. -/
def encodingAfter (enc : TiXmlEncoding) : Node → TiXmlEncoding
  | .declaration _ encoding _ =>
      if enc ≠ .unknown then enc
      else if cStr encoding = [] then .utf8
      else if stringEqualIgnoreCase (cStr encoding) (text "UTF-8") then .utf8
      else if stringEqualIgnoreCase (cStr encoding) (text "UTF8") then .utf8
      else .legacy
  | _ => enc

/-- The loop of `TiXmlDocument::Parse`. -/
def parseNodes : Nat → TiXmlEncoding → Ptr → Run (Parsed (List Node))
  | 0, _, _ => .error .outOfFuel
  | fuel + 1, enc, p => do
      match ← p.chars with
      | [] => return ⟨[], p, false⟩
      | c :: l =>
          if c ≠ chr '<' then return ⟨[], p, false⟩
          else do
            let n ← parseNode enc fuel (c :: l)
            let enc := encodingAfter enc n.node
            let v ← parseNodes fuel enc (← skipWhiteSpace enc n.next)
            return ⟨n.node :: v.node, v.next, n.error || v.error⟩

/-- `TiXmlDocument::Parse`: the children, and whether an error is set. -/
def parseDocument (l : List Byte) : Run (List Node × Bool) := do
  if l = [] then return ([], true)
  else
    let enc : TiXmlEncoding :=
      match l with
      | a :: b :: c :: _ => if a = 0xEF ∧ b = 0xBB ∧ c = 0xBF then .utf8 else .unknown
      | _ => .unknown
    let fuel := 4 * l.length + 4
    let d ← parseNodes fuel enc (← skipWhiteSpace enc (.at l))
    return (d.node, d.error || d.node.isEmpty)

/-- The line breaks of a file, in `TiXmlDocument::LoadFile`. It ends at the first NUL. -/
def normalize : List Byte → List Byte
  | [] => []
  | 13 :: 10 :: l => 10 :: normalize l
  | c :: l => if c = 0 then [] else (if c = 13 then 10 else c) :: normalize l

/-- `TiXmlDocument::LoadFile` of what is in the file, if it can be opened. -/
def loadFile (file : Option (List Byte)) : Run (List Node × Bool) :=
  match file with
  | none => .ok ([], true)
  | some content => parseDocument (normalize content)

/-! ## Printing -/

/-- The indentation at a depth. -/
def indent (depth : Nat) : List Byte := (List.replicate depth (text "    ")).flatten

/-- `TiXmlAttribute::Print`. -/
def printAttribute (a : List Byte × List Byte) : List Byte :=
  let quote : Byte := if (0x22 : Byte) ∈ a.2 then 0x27 else 0x22
  cStr (putString false a.1) ++ text "=" ++ [quote] ++ cStr (putString false a.2) ++ [quote]

mutual

/-- `Print` of the classes. -/
def printNode (depth : Nat) : Node → List Byte
  | .declaration version encoding standalone =>
      let part (name value : List Byte) : List Byte :=
        if value = [] then [] else name ++ text "=\"" ++ cStr value ++ text "\" "
      text "<?xml " ++ part (text "version") version ++ part (text "encoding") encoding ++
        part (text "standalone") standalone ++ text "?>"
  | .declarationWithoutStandalone version encoding =>
      text "<?xml version=\"" ++ cStr version ++ text "\" encoding=\"" ++ cStr encoding ++
        text "\"?>"
  | .doctype value => indent depth ++ text "<!DOCTYPE " ++ cStr value ++ text ">"
  | .comment value => indent depth ++ text "<!--" ++ cStr value ++ text "-->"
  | .unknown value => indent depth ++ text "<" ++ cStr value ++ text ">"
  | .text value cdata =>
      if cdata then
        text "\n" ++ indent depth ++ text "<![CDATA[" ++ cStr value ++ text "]]>\n"
      else cStr (putString false value)
  | .element value attributes children =>
      indent depth ++ text "<" ++ cStr value ++
        attributes.flatMap (fun a => text " " ++ printAttribute a) ++
        match children with
        | [] => text " />"
        | [.text v cdata] => text ">" ++ printNode (depth + 1) (.text v cdata) ++
            text "</" ++ cStr value ++ text ">"
        | c :: cs => text ">" ++ printNodes (depth + 1) (c :: cs) ++ text "\n" ++ indent depth ++
            text "</" ++ cStr value ++ text ">"

/-- The children of an element. -/
def printNodes (depth : Nat) : List Node → List Byte
  | [] => []
  | c :: cs =>
      (match c with
        | .text _ _ => []
        | _ => text "\n") ++ printNode depth c ++ printNodes depth cs

end

/-- `TiXmlDocument::Print`. -/
def printDocument (nodes : List Node) : List Byte :=
  nodes.flatMap fun n => printNode 0 n ++ text "\n"

/-- `TiXmlDocument::SaveFile`, of a document without a byte order mark. -/
def saveFile (crlf : Bool) (nodes : List Node) : List Byte :=
  TextStreams.write crlf (printDocument nodes)

end NanomsgDemo.Config

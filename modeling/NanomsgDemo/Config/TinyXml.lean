import NanomsgDemo.Http.Evhttp

/-!
# Characters and texts

What the TinyXml in `libproperties-1.0/src/tinyxml` does with single characters: white
space, names, entities, `ReadText`, through which a text comes out of a file, and
`PutString`, through which it goes into one.

A `const char*` into a document stands for the characters from there to the NUL. Here
and there the source adds to such a pointer what may be more than is left, or adds to
a null pointer; what comes of that may be passed around, but not read.
-/

namespace NanomsgDemo.Config

open Net (Byte chr text)
open Http (isAlpha isAlnum hexValue toLower)

/-- A `const char*` into a document. -/
inductive Ptr where
  | null
  | at (rest : List Byte)
  /-- Neither null nor in the document. -/
  | beyond
  deriving DecidableEq, Repr

/-- Why nothing comes of a call. -/
inductive Stop where
  | undefined
  | outOfFuel
  deriving DecidableEq, Repr

abbrev Run := Except Stop

namespace Ptr

/-- What there is to be read at a pointer, where it has been made sure that it is not null. -/
def chars : Ptr → Run (List Byte)
  | null => .ok []
  | .at l => .ok l
  | beyond => .error .undefined

def add (p : Ptr) (n : Nat) : Ptr :=
  match p with
  | .at l => if n ≤ l.length then .at (l.drop n) else beyond
  | _ => beyond

theorem add_append (a rest : List Byte) : (Ptr.at (a ++ rest)).add a.length = .at rest := by
  show (if a.length ≤ (a ++ rest).length then Ptr.at ((a ++ rest).drop a.length) else beyond) = _
  rw [if_pos (by rw [List.length_append]; omega), List.drop_left]

/-- How many characters there are from a pointer on. -/
def left : Ptr → Nat
  | .at l => l.length
  | _ => 0

end Ptr

/-- `TiXmlEncoding`. -/
inductive TiXmlEncoding where
  | unknown
  | utf8
  | legacy
  deriving DecidableEq, Repr

/-- What is seen of a `std::string` through `c_str()`. -/
def cStr (s : List Byte) : List Byte := s.takeWhile (· ≠ 0)

/-! ## White space and names -/

/-- `IsWhiteSpace`, in the C locale. -/
def isWhiteSpace (c : Byte) : Bool := (9 ≤ c && c ≤ 13) || c = 32

/-- `TiXmlBase::StringEqual`: the characters at `p` begin with `tag`. -/
def stringEqual (p tag : List Byte) : Bool := tag.isPrefixOf p

/-- The byte order marks that `SkipWhiteSpace` skips. -/
def isMark (l : List Byte) : Bool :=
  stringEqual l [0xEF, 0xBB, 0xBF] || stringEqual l [0xEF, 0xBF, 0xBE] ||
    stringEqual l [0xEF, 0xBF, 0xBF]

/-- The loop of `SkipWhiteSpace`; the next `marked` bytes belong to a mark. -/
def skipWhite (enc : TiXmlEncoding) : (marked : Nat) → List Byte → List Byte
  | _, [] => []
  | marked + 1, _ :: l => skipWhite enc marked l
  | 0, c :: l =>
      if enc = .utf8 ∧ isMark (c :: l) then skipWhite enc 2 l
      else if isWhiteSpace c then skipWhite enc 0 l
      else c :: l

/-- `TiXmlBase::SkipWhiteSpace`. -/
def skipWhiteSpace (enc : TiXmlEncoding) : Ptr → Run Ptr
  | .null => .ok .null
  | .at [] => .ok .null
  | .at l => .ok (.at (skipWhite enc 0 l))
  | .beyond => .error .undefined

/-- `TiXmlBase::StringEqual`, with `ignoreCase`. -/
def stringEqualIgnoreCase (p tag : List Byte) : Bool :=
  (tag.map toLower).isPrefixOf (p.map toLower)

/-- `TiXmlBase::IsAlpha`. -/
def isAlphaByte (c : Byte) : Bool := if c < 127 then isAlpha c else true

/-- `TiXmlBase::IsAlphaNum`. -/
def isAlphaNumByte (c : Byte) : Bool := if c < 127 then isAlnum c else true

def isNameStart (c : Byte) : Bool := isAlphaByte c || c = chr '_'

def isNameChar (c : Byte) : Bool := isAlphaNumByte c || (text "_-.:").contains c

/-- `TiXmlBase::ReadName`, with the name read. -/
def readName : List Byte → List Byte × Ptr
  | [] => ([], .null)
  | c :: l =>
      if isNameStart c then
        ((c :: l).takeWhile isNameChar, .at ((c :: l).dropWhile isNameChar))
      else ([], .null)

/-! ## Entities -/

/-- `TiXmlBase::entity`. -/
def entity : List (List Byte × Byte) :=
  [(text "&amp;", 0x26), (text "&lt;", 0x3C), (text "&gt;", 0x3E), (text "&quot;", 0x22),
    (text "&apos;", 0x27)]

/-- `TiXmlBase::utf8ByteTable`. -/
def utf8ByteTable (c : Byte) : Nat :=
  if c < 0xC2 then 1 else if c < 0xE0 then 2 else if c < 0xF0 then 3 else if c < 0xF5 then 4 else 1

/-- `(char)((input | BYTE_MARK) & BYTE_MASK)`. -/
def continuation (input : UInt32) : Byte := ((input ||| 0x80) &&& 0xBF).toUInt8

/-- `TiXmlBase::ConvertUTF32ToUTF8`. -/
def convertUTF32ToUTF8 (input : UInt32) : List Byte :=
  if input < 0x80 then [input.toUInt8]
  else if input < 0x800 then [((input >>> 6) ||| 0xC0).toUInt8, continuation input]
  else if input < 0x10000 then
    [((input >>> 12) ||| 0xE0).toUInt8, continuation (input >>> 6), continuation input]
  else if input < 0x200000 then
    [((input >>> 18) ||| 0xF0).toUInt8, continuation (input >>> 12), continuation (input >>> 6),
      continuation input]
  else []

/-- The value of a digit. -/
def digitValue (hex : Bool) (c : Byte) : Option Byte :=
  (hexValue c).filter fun v => hex || v < 10

/-- The loops over the digits of a reference, from the last one on. -/
def digitsValue (hex : Bool) (mult : UInt32) : List Byte → Option UInt32
  | [] => some 0
  | c :: l => do
      let v ← digitValue hex c
      let ucs ← digitsValue hex (mult * (if hex then 16 else 10)) l
      return ucs + mult * v.toUInt32

/--
A reference by number, whose digits are looked for in `l`, and backwards from its first
`;` up to the first `mark`.
-/
def numberedEntity (enc : TiXmlEncoding) (hex : Bool) (mark : Byte) (l : List Byte) :
    List Byte × Ptr :=
  match l.dropWhile (· ≠ chr ';') with
  | [] => ([], .null)
  | _ :: rest =>
      match digitsValue hex 1 ((l.takeWhile (· ≠ chr ';')).reverse.takeWhile (· ≠ mark)) with
      | none => ([], .null)
      | some ucs => (if enc = .utf8 then convertUTF32ToUTF8 ucs else [ucs.toUInt8], .at rest)

/-- `TiXmlBase::GetEntity` at a `&` that `l` follows. -/
def getEntity (enc : TiXmlEncoding) (l : List Byte) : List Byte × Ptr :=
  match l with
  | h :: c :: r =>
      if h = chr '#' then
        if c = chr 'x' then if r = [] then ([], .null) else numberedEntity enc true c r
        else numberedEntity enc false h (c :: r)
      else named l
  | _ => named l
where
  named (l : List Byte) : List Byte × Ptr :=
    match entity.find? fun e => stringEqual (0x26 :: l) e.1 with
    | some e => ([e.2], .at ((0x26 :: l).drop e.1.length))
    | none => ([], .at l)    -- `*length` is still 0

/-- `TiXmlBase::GetChar` at a character `c` that `l` follows. -/
def getChar (enc : TiXmlEncoding) (c : Byte) (l : List Byte) : List Byte × Ptr :=
  let length := if enc = .utf8 then utf8ByteTable c else 1
  if length = 1 then if c = 0x26 then getEntity enc l else ([c], .at l)
  else
    -- the bytes after the NUL are left as they were
    (((c :: l) ++ List.replicate length 0).take length, (Ptr.at (c :: l)).add length)

/-! ## Texts -/

/-- The first loop of `TiXmlBase::ReadText`, which keeps the white space. -/
def readKept (enc : TiXmlEncoding) (endTag : List Byte) : Nat → Ptr → Run (List Byte × Ptr)
  | _, .null => .ok ([], .null)
  | _, .beyond => .error .undefined
  | _, .at [] => .ok ([], .at [])
  | 0, .at (_ :: _) => .error .outOfFuel
  | fuel + 1, .at (c :: l) =>
      if stringEqual (c :: l) endTag then .ok ([], .at (c :: l))
      else do
        let (value, p) := getChar enc c l
        let (text, p) ← readKept enc endTag fuel p
        return (value ++ text, p)

/-- The second loop, which makes one space of white space. -/
def readCondensed (enc : TiXmlEncoding) (endTag : List Byte) :
    Nat → (whitespace : Bool) → Ptr → Run (List Byte × Ptr)
  | _, _, .null => .ok ([], .null)
  | _, _, .beyond => .error .undefined
  | _, _, .at [] => .ok ([], .at [])
  | 0, _, .at (_ :: _) => .error .outOfFuel
  | fuel + 1, whitespace, .at (c :: l) =>
      if stringEqual (c :: l) endTag then .ok ([], .at (c :: l))
      else if isWhiteSpace c then readCondensed enc endTag fuel true (.at l)
      else do
        let (value, p) := getChar enc c l
        let (text, p) ← readCondensed enc endTag fuel false p
        return ((if whitespace then [32] else []) ++ value ++ text, p)

/--
`TiXmlBase::ReadText`, with the text read, and the pointer before the length of `endTag`
is added to it. `condenseWhiteSpace` is set.
-/
def readText (enc : TiXmlEncoding) (p : Ptr) (trimWhiteSpace : Bool) (endTag : List Byte) :
    Run (List Byte × Ptr) := do
  if trimWhiteSpace then
    let p ← skipWhiteSpace enc p
    readCondensed enc endTag p.left false p
  else readKept enc endTag p.left p

/-- `"%02X"` of a digit. -/
def upperHex (n : Byte) : Byte := if n < 10 then n + 0x30 else n + 0x37

/-- A character in `TiXmlBase::PutString`. -/
def putChar (c : Byte) : List Byte :=
  if c = 0x26 then text "&amp;"
  else if c = 0x3C then text "&lt;"
  else if c = 0x3E then text "&gt;"
  else if c = 0x22 then text "&quot;"
  else if c = 0x27 then text "&apos;"
  else if c < 32 then text "&#x" ++ [upperHex (c / 16), upperHex (c % 16), chr ';']
  else [c]

/--
`TiXmlBase::PutString`. From a `&#x` on, what is there is passed through unchanged, up
to a `;` or to the last character.
-/
def putString (passing : Bool) : List Byte → List Byte
  | [] => []
  | c :: l =>
      if passing ∧ l ≠ [] then c :: putString (!stringEqual l (text ";")) l
      else if c = 0x26 ∧ stringEqual l (text "#x") then c :: putString true l
      else putChar c ++ putString false l

end NanomsgDemo.Config

import NanomsgDemo.Lib.Format
import NanomsgDemo.Net.CString

/-!
# What the HTTP server uses of evhttp

From the libevent in the tree, `libevent/http.c`: the strict parser of URIs, the
parser of query strings, and the decoding of `%XX`. A part of a string is the list
of its bytes; what is kept is duplicated as a C string.

The form of an IPv6 address is left to `inet_pton`, which is the system's.
-/

namespace NanomsgDemo.Http

open Net (Byte CString chr text)

/-- `evhttp_cmd_type`. -/
inductive EvhttpCmdType where
  | UNKNOWN_
  | GET
  | POST
  | HEAD
  | PUT
  | DELETE
  | OPTIONS
  | TRACE
  | CONNECT
  | PATCH
  deriving DecidableEq, Repr

/-! ## Characters -/

/-- `EVUTIL_ISALPHA_`. -/
def isAlpha (c : Byte) : Bool :=
  (chr 'a' ≤ c && c ≤ chr 'z') || (chr 'A' ≤ c && c ≤ chr 'Z')

/-- `EVUTIL_ISDIGIT_`. -/
def isDigit (c : Byte) : Bool := chr '0' ≤ c && c ≤ chr '9'

/-- `EVUTIL_ISALNUM_`. -/
def isAlnum (c : Byte) : Bool := isAlpha c || isDigit c

/-- The value of a hexadecimal digit. -/
def hexValue (c : Byte) : Option Byte :=
  if isDigit c then some (c - chr '0')
  else if chr 'a' ≤ c && c ≤ chr 'f' then some (c - chr 'a' + 10)
  else if chr 'A' ≤ c && c ≤ chr 'F' then some (c - chr 'A' + 10)
  else none

/-- `EVUTIL_ISXDIGIT_`. -/
def isXDigit (c : Byte) : Bool := (hexValue c).isSome

/-- `EVUTIL_TOLOWER_`. -/
def toLower (c : Byte) : Byte :=
  if chr 'A' ≤ c && c ≤ chr 'Z' then c - chr 'A' + chr 'a' else c

/-- `CHAR_IS_UNRESERVED`. -/
def charIsUnreserved (c : Byte) : Bool := isAlnum c || (text "-._~").contains c

/-- `SUBDELIMS`. -/
def SUBDELIMS : List Byte := text "!$&'()*+,;="

/-! ## `evhttp_uri_parse` -/

/-- `struct evhttp_uri`, without its flags. -/
structure EvhttpUri where
  scheme : Option CString
  userinfo : Option CString
  host : Option CString
  port : Int
  path : CString
  query : Option CString
  fragment : Option CString
  deriving DecidableEq

/-- The longest prefix of characters that are `ok` and of `%XX`, and what comes after it. -/
def scan (ok : Byte → Bool) : List Byte → List Byte × List Byte
  | [] => ([], [])
  | c :: s =>
      if ok c then
        let (part, rest) := scan ok s
        (c :: part, rest)
      else
        match s with
        | x :: y :: s' =>
            if c = chr '%' && isXDigit x && isXDigit y then
              let (part, rest) := scan ok s'
              (c :: x :: y :: part, rest)
            else ([], c :: s)
        | _ => ([], c :: s)

/-- `scheme_ok`. -/
def schemeOk : List Byte → Bool
  | [] => false
  | c :: s => isAlpha c && s.all fun c => isAlnum c || (text "+-.").contains c

/-- `userinfo_ok`. -/
def userinfoOk (s : List Byte) : Bool :=
  (scan (fun c => charIsUnreserved c || SUBDELIMS.contains c || c = chr ':') s).2.isEmpty

/-- `regname_ok`. -/
def regnameOk (s : List Byte) : Bool :=
  (scan (fun c => charIsUnreserved c || SUBDELIMS.contains c) s).2.isEmpty

/-- `parse_port`: `none` for the -1 of a port that is too large. -/
def parsePort (s : List Byte) : Option Nat :=
  s.foldlM (fun portnum c =>
    let portnum := portnum * 10 + (c - chr '0').toNat
    if portnum > 65535 then none else some portnum) 0

section InetPton

/- Whether `inet_pton` takes a string for an IPv6 address. -/
variable (inetPton : CString → Bool)

/-- `bracket_addr_ok`, where the brackets have been seen. -/
def bracketAddrOk (s : List Byte) : Bool :=
  if s.length < 3 then false
  else
    let inner := (s.drop 1).dropLast
    if inner.head? = some (chr 'v') then
      let (digits, rest) := (inner.drop 1).span isXDigit
      !digits.isEmpty && rest.head? = some (chr '.') &&
        (rest.drop 1).all fun c =>
          charIsUnreserved c || SUBDELIMS.contains c || c = chr ':'
    else if inner.length ≥ 64 then false
    else inetPton (CString.ofBuffer inner)

/-- `parse_authority`: the userinfo, the host and the port. -/
def parseAuthority (s : List Byte) : Option (Option CString × CString × Int) := do
  if s.isEmpty then return (none, CString.ofBuffer [], -1)
  let (before, at_) := s.span (· ≠ chr '@')
  let (userinfo, cp) ←
    if at_.isEmpty then some (none, s)
    else if userinfoOk before then some (some (CString.ofBuffer before), at_.drop 1)
    else none
  let digits := (cp.reverse.takeWhile isDigit).reverse
  let front := cp.take (cp.length - digits.length)
  let (host, port) ←
    if front.getLast? = some (chr ':') then
      if digits.isEmpty then some (front.dropLast, -1)
      else (parsePort digits).map fun port => (front.dropLast, (port : Int))
    else some (cp, -1)
  let bracketed := host.head? = some (chr '[') ∧ host.length ≥ 2 ∧
    host.getLast? = some (chr ']')
  if bracketed then
    if bracketAddrOk inetPton host then return (userinfo, CString.ofBuffer host, port) else none
  else
    if regnameOk host then return (userinfo, CString.ofBuffer host, port) else none

/-- `end_of_path`: a path, or with `qchars` a query or a fragment, and what comes after it. -/
def endOfPath (qchars : Bool) (cp : List Byte) : List Byte × List Byte :=
  scan (fun c => charIsUnreserved c || SUBDELIMS.contains c || (text ":@/").contains c ||
    (qchars && c = chr '?')) cp

/-- `path_matches_noscheme`. -/
def pathMatchesNoscheme (cp : List Byte) : Bool :=
  (cp.find? fun c => c = chr ':' || c = chr '/') ≠ some (chr ':')

/-- A part of a URI that begins with a mark, and what comes after it. -/
def markedPart (mark : Char) (cp : List Byte) : Option (List Byte) × List Byte :=
  match cp with
  | c :: rest =>
      if c = chr mark then
        let (part, rest) := endOfPath true rest
        (some part, rest)
      else (none, cp)
  | [] => (none, [])

/-- `evhttp_uri_parse`, which is `evhttp_uri_parse_with_flags` without flags. -/
def evhttpUriParse (sourceUri : CString) : Option EvhttpUri := do
  let readp := sourceUri.bytes
  -- 1. scheme:
  let (front, colon) := readp.span (· ≠ chr ':')
  let (scheme, readp) :=
    if !colon.isEmpty && schemeOk front then (some (CString.ofBuffer front), colon.drop 1)
    else (none, readp)
  -- 2. optionally "//" and an authority
  let gotAuthority := readp.take 2 = text "//"
  let (userinfo, host, port, path) ←
    if gotAuthority then do
      let (authority, path) := (readp.drop 2).span fun c => !(text "?#/").contains c
      let (userinfo, host, port) ← parseAuthority inetPton authority
      some (userinfo, some host, port, path)
    else some (none, none, -1, readp)
  -- 3. path, query and fragment, and nothing else
  let (path, readp) := endOfPath false path
  let (query, readp) := markedPart '?' readp
  let (fragment, readp) := markedPart '#' readp
  if !readp.isEmpty then none
  else if !gotAuthority && path.take 2 = text "//" then none
  else if gotAuthority && !path.isEmpty && path.head? ≠ some (chr '/') then none
  else if scheme.isNone && !pathMatchesNoscheme path then none
  else
    return { scheme, userinfo, host, port, path := CString.ofBuffer path
             query := query.map CString.ofBuffer, fragment := fragment.map CString.ofBuffer }

end InetPton

/-! ## Query strings -/

/-- `evhttp_decode_uri_internal`, without the mode that waits for a `?`. -/
def evhttpDecodeUriInternal (decodePlus : Bool) : List Byte → List Byte
  | [] => []
  | c :: x :: y :: s =>
      match c == chr '%', hexValue x, hexValue y with
      | true, some h, some l => (h * 16 + l) :: evhttpDecodeUriInternal decodePlus s
      | _, _, _ => plain c :: evhttpDecodeUriInternal decodePlus (x :: y :: s)
  | c :: s => plain c :: evhttpDecodeUriInternal decodePlus s
where
  plain (c : Byte) : Byte := if c = chr '+' && decodePlus then chr ' ' else c

/-- `struct evkeyvalq`. -/
abbrev Evkeyvalq := List (CString × CString)

/-- `strsep`: the bytes before the delimiter, and those after it, null if it is not there. -/
def strsep (delim : Char) (s : List Byte) : List Byte × Option (List Byte) :=
  match s.span (· ≠ chr delim) with
  | (front, []) => (front, none)
  | (front, _ :: rest) => (front, some rest)

theorem strsep_length {delim : Char} {s front rest : List Byte}
    (h : strsep delim s = (front, some rest)) : rest.length < s.length := by
  unfold strsep at h
  rw [List.span_eq_takeWhile_dropWhile] at h
  split at h
  · cases h
  · rename_i front' c rest' heq
    cases h
    have hd : s.dropWhile (· ≠ chr delim) = c :: rest := (Prod.ext_iff.mp heq).2
    have hl := (List.dropWhile_suffix (l := s) (· ≠ chr delim)).length_le
    rw [hd] at hl
    exact hl

/-- The loop of `evhttp_parse_query_impl`: what it returns, and the headers. -/
def queryLoop (headers : Evkeyvalq) (p : List Byte) : Int32 × Evkeyvalq :=
  if p.isEmpty then (0, headers)
  else
    match _ : strsep '&' p with
    | (argument, rest) =>
        match strsep '=' argument with
        | (_, none) => (-1, [])
        | (key, some value) =>
            if key.isEmpty then (-1, [])
            else
              let decodedValue := evhttpDecodeUriInternal true value
              let headers := headers ++ [(CString.ofBuffer key, CString.ofBuffer decodedValue)]
              match rest with
              | none => (0, headers)
              | some rest => queryLoop headers rest
termination_by p.length
decreasing_by exact strsep_length ‹_›

/-- `evhttp_parse_query_str`. -/
def evhttpParseQueryStr : Option CString → Int32 × Evkeyvalq
  | none => (0, [])
  | some query => queryLoop [] query.bytes

/-- `evhttp_parse_query`: of a whole URI. -/
def evhttpParseQuery (inetPton : CString → Bool) (uri : CString) : Int32 × Evkeyvalq :=
  match evhttpUriParse inetPton uri with
  | none => (-1, [])
  | some uri => evhttpParseQueryStr uri.query

/-- `evhttp_find_header`. -/
def evhttpFindHeader (headers : Evkeyvalq) (key : CString) : Option CString :=
  (headers.find? fun header => header.1.bytes.map toLower = key.bytes.map toLower).map Prod.snd

/-! ## Replies -/

/-- A reply on its way to the client. -/
inductive Reply where
  /-- `evhttp_send_reply`, with the `Content-Type` that was set before it. -/
  | reply (contentType : Option String) (code : Nat) (body : List Byte)
  /-- `evhttp_send_error`. -/
  | error (code : Nat) (reason : Option String)
  deriving DecidableEq, Repr

def HTTP_OK : Nat := 200
def HTTP_BADREQUEST : Nat := 400
def HTTP_NOTFOUND : Nat := 404
def HTTP_NOTIMPLEMENTED : Nat := 501

/-- `evbuffer_add_printf` of a format without arguments: the text that is added. -/
def evbufferAddPrintf (fmt : List Byte) : Option (List Byte) := Format.expand fmt

end NanomsgDemo.Http

import NanomsgDemo.Http.HttpServer
import NanomsgDemo.Http.JsonWriter
import NanomsgDemo.Http.LwUtil

/-!
# The handlers of the platform's HTTP server

`PlatformHttpServer/http_server_business.cpp`. A handler returns the replies it has
sent, or nothing at all where its behaviour is undefined: it follows a null pointer,
writes past the end of `buff`, or passes a format that asks for arguments.

The three handlers that calculate answer whatever the query is. What they do not
check is that the URI could be parsed. `login_post_cb` has three ways out without a
reply: no body, a body that fills `buff`, and no host.
-/

namespace NanomsgDemo.Http

open Net (Byte CString chr text)
open Format

/-- A handler: the replies it sends, `none` where its behaviour is undefined. -/
abbrev Handler := EvhttpRequest → Option (List Reply)

/-- What comes of an action. -/
def Action.run (action : Action Handler) (req : EvhttpRequest) : Option (List Reply) :=
  match action with
  | .invoke requestCb => requestCb req
  | .invokeGen genCb => genCb req
  | .sendReply what => (lwHttpSendReply (text what)).map fun reply => [reply]
  | .sendError code => some [.error code none]
  | .ignore => some []

/-- Exactly one reply. -/
def AnsweredOnce (replies : Option (List Reply)) : Prop := ∃ reply, replies = some [reply]

/-! ## The handlers -/

/-- `isspace`. -/
def isSpace (c : Byte) : Bool := c = chr ' ' || (9 ≤ c && c ≤ 13)

/-- `std::atoi`, which stops at the bounds of `int`. -/
def atoi (s : CString) : Int32 :=
  let s := s.bytes.dropWhile isSpace
  let negative := s.head? = some (chr '-')
  let digits := if negative ∨ s.head? = some (chr '+') then s.drop 1 else s
  let n := (digits.takeWhile isDigit).foldl (fun n c => n * 10 + ((c - chr '0').toNat : Int)) 0
  Int32.ofInt (max (-2 ^ 31) (min (2 ^ 31 - 1) (if negative then -n else n)))

/-- `POST_BUF_MAX`. -/
def POST_BUF_MAX : Nat := 1024 * 4

/-- `default_cb`. -/
def defaultCb : Handler := fun _ => some [.error HTTP_BADREQUEST (some "sorry，你走错地方了！")]

/-- `int data_len = evbuffer_get_length(evbuf);` -/
def dataLen (req : EvhttpRequest) : Int32 := Int32.ofNat req.body.length

/-- `login_post_cb`, without the query parameters it looks up and does not use. -/
def loginPostCb : Handler := fun req =>
  if dataLen req ≤ 0 then some []
  else
    let copyLen := min (dataLen req).toInt.toNat POST_BUF_MAX
    -- the NUL goes to `buff[copy_len]`
    if POST_BUF_MAX ≤ copyLen then none
    else
      let buff := CString.ofBuffer (req.body.take copyLen)
      match req.host with
      | none => none
      | some host =>
          let kv := (KVQueryUrlValue.parse buff).1
          let doc := (stringValue (CString.lit "host"), stringValue host) ::
            kv.kv.map fun pkv => (stringValue pkv.1, stringValue pkv.2)
          (lwHttpSendReply (writeObject doc)).map fun reply => [reply]

/-- What the three handlers do with `a` and `b` once the query has been parsed. -/
def calculate (parsed : Int32 × Evkeyvalq) (answer : Int32 → Int32 → String) :
    Option (List Reply) :=
  let (ret, queryParams) := parsed
  if ret ≠ 0 then (lwHttpSendReply (text "paragma is error!")).map fun reply => [reply]
  else
    match evhttpFindHeader queryParams (CString.lit "a") with
    | none => (lwHttpSendReply (text "a paragma is error!")).map fun reply => [reply]
    | some a =>
        match evhttpFindHeader queryParams (CString.lit "b") with
        | none => (lwHttpSendReply (text "b paragma is error!")).map fun reply => [reply]
        | some b => some [.reply none HTTP_OK (text (answer (atoi a) (atoi b)))]

section InetPton

variable (inetPton : CString → Bool)

/-- `add_get_cb`. -/
def addGetCb : Handler := fun req =>
  match evhttpUriParse inetPton req.uri with
  | none => none
  | some url =>
      calculate (evhttpParseQueryStr url.query) fun a b =>
        toString a ++ " + " ++ toString b ++ " = " ++ toString (a + b)

/-- `sub_get_cb`, which adds. -/
def subGetCb : Handler := fun req =>
  match evhttpUriParse inetPton req.uri with
  | none => none
  | some url =>
      calculate (evhttpParseQueryStr url.query) fun a b =>
        toString a ++ " + " ++ toString b ++ " = " ++ toString (a + b)

/- `%f` of a quotient of two `double`s. -/
variable (quotient : Int32 → Int32 → String)

/-- The handler of `/mul`, which divides. -/
def mulGetCb : Handler := fun req =>
  calculate (evhttpParseQuery inetPton req.uri) fun a b =>
    toString a ++ " / " ++ toString b ++ " = " ++ quotient a b

/-- The registrations of `__create_http_service_business`. -/
def createHttpServiceBusiness : List (Registration Handler) :=
  [.gen (some defaultCb),
   .post (CString.lit "/login") loginPostCb,
   .get (CString.lit "/add") (addGetCb inetPton),
   .get (CString.lit "/sub") (subGetCb inetPton),
   .get (CString.lit "/mul") (mulGetCb inetPton quotient)]

/-- What a request to the server is answered with. -/
def serve : Handler := fun req =>
  (actionFor (createHttpServiceBusiness inetPton quotient) req).run req

end InetPton

/-! ## Which requests each handler answers -/

/-- A text that is a format without arguments is sent, and no other. -/
theorem answeredOnce_lwHttpSendReply (what : List Byte) :
    AnsweredOnce ((lwHttpSendReply what).map fun reply => [reply]) ↔
      paired what = true := by
  rw [← expand_isSome, AnsweredOnce, lwHttpSendReply, evbufferAddPrintf]
  cases expand what with
  | none => simp
  | some buf => simp

theorem answeredOnce_text {what : String} (h : paired (text what) = true) :
    AnsweredOnce ((lwHttpSendReply (text what)).map fun reply => [reply]) :=
  (answeredOnce_lwHttpSendReply _).mpr h

/-- The string in `buff` after the body has been copied into it. -/
def loginBuff (req : EvhttpRequest) : CString :=
  CString.ofBuffer (req.body.take (dataLen req).toInt.toNat)

/--
A body that is there and leaves room for the NUL, a host, and no `%` in the host or
in a field of the form that would be taken for a directive.
-/
structure LoginAnswerable (req : EvhttpRequest) : Prop where
  body_nonempty : 0 < dataLen req
  body_fits : (dataLen req).toInt < POST_BUF_MAX
  host : ∃ host, req.host = some host ∧ paired (stringValue host) = true
  fields : ∀ pkv ∈ (KVQueryUrlValue.parse (loginBuff req)).1.kv,
    paired (stringValue pkv.1) = true ∧ paired (stringValue pkv.2) = true

/-- Without a body there is no reply. -/
theorem loginPostCb_empty {req : EvhttpRequest} (h : dataLen req ≤ 0) :
    loginPostCb req = some [] := if_pos h

theorem dataLen_toInt_pos {req : EvhttpRequest} (h : ¬dataLen req ≤ 0) :
    0 < (dataLen req).toInt := Int32.lt_iff_toInt_lt.mp (Int32.not_le.mp h)

/-- A body that fills `buff` leaves no room for the NUL. -/
theorem loginPostCb_full {req : EvhttpRequest} (hpos : ¬dataLen req ≤ 0)
    (hfull : (POST_BUF_MAX : Int) ≤ (dataLen req).toInt) : loginPostCb req = none := by
  have hcopy : POST_BUF_MAX ≤ min (dataLen req).toInt.toNat POST_BUF_MAX := by omega
  rw [loginPostCb, if_neg hpos, if_pos hcopy]

/-- Any other body is read as a form, and the reply is the host and the fields. -/
theorem loginPostCb_fits {req : EvhttpRequest} (hpos : ¬dataLen req ≤ 0)
    (hfits : (dataLen req).toInt < POST_BUF_MAX) :
    loginPostCb req =
      match req.host with
      | none => none
      | some host =>
          (lwHttpSendReply (writeObject ((stringValue (CString.lit "host"), stringValue host) ::
            (KVQueryUrlValue.parse (loginBuff req)).1.kv.map fun pkv =>
              (stringValue pkv.1, stringValue pkv.2)))).map fun reply => [reply] := by
  have hint := dataLen_toInt_pos hpos
  have hcopy : min (dataLen req).toInt.toNat POST_BUF_MAX = (dataLen req).toInt.toNat := by omega
  have hroom : ¬POST_BUF_MAX ≤ (dataLen req).toInt.toNat := by omega
  rw [loginPostCb, if_neg hpos, hcopy, if_neg hroom]
  rfl

theorem loginPostCb_answered (req : EvhttpRequest) :
    AnsweredOnce (loginPostCb req) ↔ LoginAnswerable req := by
  by_cases hempty : dataLen req ≤ 0
  · rw [loginPostCb_empty hempty]
    constructor
    · rintro ⟨reply, hr⟩
      cases hr
    · intro h
      exact absurd hempty (Int32.not_le.mpr h.body_nonempty)
  by_cases hfull : (POST_BUF_MAX : Int) ≤ (dataLen req).toInt
  · rw [loginPostCb_full hempty hfull]
    constructor
    · rintro ⟨reply, hr⟩
      cases hr
    · intro h
      exact absurd h.body_fits (by omega)
  have hfits : (dataLen req).toInt < POST_BUF_MAX := by omega
  rw [loginPostCb_fits hempty hfits]
  cases hhost : req.host with
  | none =>
      constructor
      · rintro ⟨reply, hr⟩
        cases hr
      · intro h
        obtain ⟨host, hh, -⟩ := h.host
        rw [hhost] at hh
        cases hh
  | some host =>
      have hname : paired (stringValue (CString.lit "host")) = true := by decide
      simp only [answeredOnce_lwHttpSendReply, paired_writeObject, List.all_cons, hname,
        Bool.true_and, List.all_map, Bool.and_eq_true, List.all_eq_true, Function.comp]
      constructor
      · intro h
        exact ⟨Int32.not_le.mp hempty, hfits, ⟨host, hhost, h.1⟩, h.2⟩
      · intro h
        obtain ⟨host', hh, hp⟩ := h.host
        rw [hhost] at hh
        cases hh
        exact ⟨hp, h.fields⟩

/-- Whatever the query was, the handlers that calculate answer. -/
theorem calculate_answered (parsed : Int32 × Evkeyvalq) (answer : Int32 → Int32 → String) :
    AnsweredOnce (calculate parsed answer) := by
  rcases parsed with ⟨ret, queryParams⟩
  simp only [calculate]
  split
  · apply answeredOnce_text
    decide
  · split
    · apply answeredOnce_text
      decide
    · split
      · apply answeredOnce_text
        decide
      · exact ⟨_, rfl⟩

section InetPton

variable (inetPton : CString → Bool) (quotient : Int32 → Int32 → String)

theorem addGetCb_answered (req : EvhttpRequest) :
    AnsweredOnce (addGetCb inetPton req) ↔ (evhttpUriParse inetPton req.uri).isSome = true := by
  unfold addGetCb
  cases evhttpUriParse inetPton req.uri with
  | none => simp [AnsweredOnce]
  | some url => simp [calculate_answered]

theorem subGetCb_answered (req : EvhttpRequest) :
    AnsweredOnce (subGetCb inetPton req) ↔ (evhttpUriParse inetPton req.uri).isSome = true :=
  addGetCb_answered inetPton req

theorem mulGetCb_answered (req : EvhttpRequest) :
    AnsweredOnce (mulGetCb inetPton quotient req) :=
  calculate_answered _ _

/-! ## Which requests the server answers -/

/-- The route of each of the four paths. -/
theorem head?_matching_business (p : CString) :
    (matching (createHttpServiceBusiness inetPton quotient) p).head? =
      if p = CString.lit "/login" then some (.POST, loginPostCb)
      else if p = CString.lit "/add" then some (.GET, addGetCb inetPton)
      else if p = CString.lit "/sub" then some (.GET, subGetCb inetPton)
      else if p = CString.lit "/mul" then some (.GET, mulGetCb inetPton quotient)
      else none := by
  have hcomm : ∀ s, (CString.lit s = p) = (p = CString.lit s) := fun s => propext eq_comm
  simp only [matching, createHttpServiceBusiness, Registration.route, List.filterMap_cons, hcomm]
  split_ifs
  all_goals rfl

theorem generic_business :
    (serverAfter (createHttpServiceBusiness inetPton quotient)).generic =
      .invokeGen defaultCb := by
  simp only [serverAfter, createHttpServiceBusiness, List.foldl_cons, List.foldl_nil,
    Registration.apply, HttpServer.get, HttpServer.post, HttpServer.generic_doStore]
  rfl

/-- The handler of a path and a method is the one that gets the request. -/
theorem serve_of_route {req : EvhttpRequest} {cb : Handler}
    (hcmd : req.type = .GET ∨ req.type = .POST)
    (hroute : (matching (createHttpServiceBusiness inetPton quotient)
      (HttpServer.translated req)).head? = some (req.type, cb)) :
    serve inetPton quotient req = cb req := by
  rw [serve, (actionFor_eq_invoke_iff _ hcmd cb).mpr hroute]
  rfl

theorem serve_add_or_sub_answered {req : EvhttpRequest} (htype : req.type = .GET)
    (hpath : HttpServer.translated req = CString.lit "/add" ∨
      HttpServer.translated req = CString.lit "/sub") :
    AnsweredOnce (serve inetPton quotient req) ↔
      (evhttpUriParse inetPton req.uri).isSome = true := by
  rcases hpath with hpath | hpath
  · have hadd : serve inetPton quotient req = addGetCb inetPton req := by
      apply serve_of_route _ _ (Or.inl htype)
      rw [head?_matching_business, hpath, if_neg (by decide), if_pos rfl, htype]
    rw [hadd, addGetCb_answered]
  · have hsub : serve inetPton quotient req = subGetCb inetPton req := by
      apply serve_of_route _ _ (Or.inl htype)
      rw [head?_matching_business, hpath, if_neg (by decide), if_neg (by decide), if_pos rfl,
        htype]
    rw [hsub, subGetCb_answered]

/-- The server's own replies go out. -/
theorem paired_unsupported (cmd : EvhttpCmdType) :
    paired (text (unsupported cmd)) = true := by
  cases cmd
  all_goals decide

/-- A request for none of the three handlers that may fail is answered. -/
theorem serve_answered_of_other {req : EvhttpRequest}
    (hlogin : ¬(req.type = .POST ∧ HttpServer.translated req = CString.lit "/login"))
    (hparse : ¬(req.type = .GET ∧ (HttpServer.translated req = CString.lit "/add" ∨
      HttpServer.translated req = CString.lit "/sub"))) :
    AnsweredOnce (serve inetPton quotient req) := by
  unfold serve actionFor
  rcases HttpServer.handleRequest_cases
      (serverAfter (createHttpServiceBusiness inetPton quotient)) req with
    ⟨code, hact⟩ | ⟨cb, hroute, hact⟩ | hact | hact
  · exact ⟨_, by rw [hact]; rfl⟩
  · -- the one handler that is left is that of `/mul`
    rw [HttpServer.routeOf_serverAfter, head?_matching_business] at hroute
    rw [hact]
    split_ifs at hroute with hpath hpath hpath hpath
    all_goals rcases Prod.ext_iff.mp (Option.some.inj hroute) with ⟨htype, hcb⟩
    · exact absurd ⟨htype.symm, hpath⟩ hlogin
    · exact absurd ⟨htype.symm, Or.inl hpath⟩ hparse
    · exact absurd ⟨htype.symm, Or.inr hpath⟩ hparse
    · have hmul : cb = mulGetCb inetPton quotient := hcb.symm
      rw [hmul]
      exact mulGetCb_answered inetPton quotient req
  · rw [hact]
    exact answeredOnce_text (paired_unsupported req.type)
  · rw [hact, generic_business]
    exact ⟨_, rfl⟩

/--
A request that the server can answer: a POST to `/login` has to be one that
`login_post_cb` answers, and the URI of a GET of `/add` or `/sub` one that can be parsed.
-/
structure Answerable (req : EvhttpRequest) : Prop where
  login : req.type = .POST → HttpServer.translated req = CString.lit "/login" →
    LoginAnswerable req
  parsed : req.type = .GET → HttpServer.translated req = CString.lit "/add" ∨
    HttpServer.translated req = CString.lit "/sub" →
    (evhttpUriParse inetPton req.uri).isSome = true

/--
**Which requests are answered exactly once.**

All of them but two kinds: a POST to `/login` with an empty body, with one that fills
`buff`, without a host, or with a stray `%`; and a GET of `/add` or `/sub` whose URI
the strict parser refuses, although the request line has been parsed.
-/
theorem answered_iff_answerable (req : EvhttpRequest) :
    AnsweredOnce (serve inetPton quotient req) ↔ Answerable inetPton req := by
  by_cases hlogin : req.type = .POST ∧ HttpServer.translated req = CString.lit "/login"
  · rcases hlogin with ⟨htype, hpath⟩
    have hserve : serve inetPton quotient req = loginPostCb req := by
      apply serve_of_route _ _ (Or.inr htype)
      rw [head?_matching_business, if_pos hpath, htype]
    rw [hserve, loginPostCb_answered]
    constructor
    · intro h
      refine ⟨fun _ _ => h, fun hget _ => ?_⟩
      rw [htype] at hget
      cases hget
    · intro h
      exact h.login htype hpath
  by_cases hparse : req.type = .GET ∧ (HttpServer.translated req = CString.lit "/add" ∨
      HttpServer.translated req = CString.lit "/sub")
  · rcases hparse with ⟨htype, hpath⟩
    rw [serve_add_or_sub_answered inetPton quotient htype hpath]
    constructor
    · intro h
      refine ⟨fun hpost _ => ?_, fun _ _ => h⟩
      rw [htype] at hpost
      cases hpost
    · intro h
      exact h.parsed htype hpath
  -- every other request is answered
  have hans : Answerable inetPton req :=
    ⟨fun htype hpath => absurd ⟨htype, hpath⟩ hlogin,
      fun htype hpath => absurd ⟨htype, hpath⟩ hparse⟩
  exact ⟨fun _ => hans, fun _ => serve_answered_of_other inetPton quotient hlogin hparse⟩

end InetPton

/-- A POST to `/login` without a body gets no answer. -/
theorem not_answered_empty_login :
    ¬AnsweredOnce (serve (fun _ => false) (fun _ _ => "")
      ⟨.POST, CString.lit "/login", CString.lit "/login", some (CString.lit "localhost"), []⟩) := by
  rintro ⟨reply, hr⟩
  have hserve : serve (fun _ => false) (fun _ _ => "")
      ⟨.POST, CString.lit "/login", CString.lit "/login", some (CString.lit "localhost"), []⟩ =
      loginPostCb _ := serve_of_route _ _ (Or.inr rfl) rfl
  rw [hserve] at hr
  cases hr

end NanomsgDemo.Http

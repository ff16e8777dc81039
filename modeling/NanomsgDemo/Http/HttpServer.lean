import Mathlib.Data.List.AList
import NanomsgDemo.Http.Evhttp
import NanomsgDemo.Lib.Runs

/-!
# Routing

`libnet/http_server.cpp`. A registration goes into two tables: evhttp keeps one
callback for each path and refuses a second, and the signature it is given says
which one method that callback is for. So what a path answers is decided by its
first registration, whatever is registered for it later.

`matching` is the log of what was registered for a path. The routes in evhttp are
the heads of these logs (`routeOf_serverAfter`).
-/

namespace NanomsgDemo.Http

open Net (Byte CString chr text)

/--
`struct evhttp_request`, as dispatch and the handlers see it. `path` is that of
`uri_elems`, `host` what `evhttp_request_get_host` returns, and `body` is the
input buffer.
-/
structure EvhttpRequest where
  type : EvhttpCmdType
  uri : CString
  path : CString
  host : Option CString
  body : List Byte
  deriving DecidableEq

/-- `HTTP_METHOD_SIGNATURE`. -/
structure HttpMethodSignature (κ : Type*) where
  sign : CString
  cmd : EvhttpCmdType
  requestCb : κ
  deriving DecidableEq

/-- What becomes of a request. -/
inductive Action (κ : Type*) where
  | invoke (requestCb : κ)
  | invokeGen (genCb : κ)
  | sendReply (what : String)
  | sendError (code : Nat)
  | ignore
  deriving DecidableEq

/-- `struct evhttp`: the paths with their arguments of `__requestHandler`, and `gencb`. -/
structure Evhttp (κ : Type*) where
  callbacks : List (CString × HttpMethodSignature κ)
  gencb : Bool

/-- `HttpServer`, once `create` has succeeded. -/
structure HttpServer (κ : Type*) where
  htpServ : Evhttp κ
  method : AList fun _ : CString => HttpMethodSignature κ
  genCb : Option κ

variable {κ : Type*}

namespace Evhttp

/-- The entry that the loops over `callbacks` find. -/
def find (http : Evhttp κ) (uri : CString) : Option (CString × HttpMethodSignature κ) :=
  http.callbacks.find? fun cb => cb.1 = uri

/-- `evhttp_set_cb`. -/
def setCb (http : Evhttp κ) (uri : CString) (cbarg : HttpMethodSignature κ) : Evhttp κ × Int32 :=
  match http.find uri with
  | some _ => (http, -1)
  | none => ({ http with callbacks := http.callbacks ++ [(uri, cbarg)] }, 0)

/-- The methods `evhttp_new` allows. -/
def allowedMethods : List EvhttpCmdType := [.GET, .POST, .HEAD, .PUT, .DELETE]

end Evhttp

/-! ## The reply of the server itself -/

/-- `__requestHandler`'s reply to a method other than the one of the signature. -/
def unsupported : EvhttpCmdType → String
  | .GET => "\x7b\"code\":0,\"what\":\"The requested resource does not support " ++
      "http method 'GET'.\x7d"
  | .POST => "\x7b\"code\":0,\"what\":\"The requested resource does not support " ++
      "http method 'POST'.\x7d"
  | _ => "\x7b\"code\":0,\"what\":\"The requested resource only support " ++
      "http method 'GET' OR 'POST'.\x7d"

/-- `lw_http_send_reply`: the text is handed to `evbuffer_add_printf` as the format. -/
def lwHttpSendReply (what : List Byte) : Option Reply :=
  (evbufferAddPrintf what).map fun buf =>
    .reply (some "text/plain; charset=UTF-8") HTTP_OK buf

/-- `CoreHttp::__requestHandler`. -/
def requestHandler (signature : HttpMethodSignature κ) (cmd : EvhttpCmdType) : Action κ :=
  match cmd with
  | .GET =>
      if signature.cmd = cmd then .invoke signature.requestCb
      else .sendReply (unsupported .GET)
  | .POST =>
      if signature.cmd = cmd then .invoke signature.requestCb
      else .sendReply (unsupported .POST)
  | _ => .sendReply (unsupported cmd)

namespace HttpServer

def init : HttpServer κ where
  htpServ := { callbacks := [], gencb := false }
  method := ∅
  genCb := none

/-- `CoreHttp::__genHandler`. -/
def genHandler (s : HttpServer κ) : Action κ :=
  match s.genCb with
  | some cb => .invokeGen cb
  | none => .ignore

/-- `HttpServer::gen`. -/
def gen (s : HttpServer κ) (cb : Option κ) : HttpServer κ :=
  { s with htpServ := { s.htpServ with gencb := true }, genCb := cb }

/-- `HttpServer::__doStore`. -/
def doStore (s : HttpServer κ) (path : CString) (cmd : EvhttpCmdType) (cb : κ) : HttpServer κ :=
  let signature : HttpMethodSignature κ := ⟨path, cmd, cb⟩
  let (htpServ, r) := s.htpServ.setCb path signature
  if r = 0 then
    match s.method.lookup path with
    | none => { s with htpServ, method := s.method.insert path signature }
    | some _ => { s with htpServ, method := s.method.replace path signature }
  else { s with htpServ }

/-- `HttpServer::get`. -/
def get (s : HttpServer κ) (path : CString) (cb : κ) : HttpServer κ := s.doStore path .GET cb

/-- `HttpServer::post`. -/
def post (s : HttpServer κ) (path : CString) (cb : κ) : HttpServer κ := s.doStore path .POST cb

/-- The path `evhttp_dispatch_callback` looks for. -/
def translated (req : EvhttpRequest) : CString :=
  CString.ofBuffer (evhttpDecodeUriInternal false req.path.bytes)

/-- What `evhttp_handle_request` does about a path without a callback. -/
def generic (s : HttpServer κ) : Action κ :=
  if s.htpServ.gencb then s.genHandler else .sendError HTTP_NOTFOUND

/-- `evhttp_handle_request`, for a request line that was parsed and no virtual hosts. -/
def handleRequest (s : HttpServer κ) (req : EvhttpRequest) : Action κ :=
  if req.type = .UNKNOWN_ then .sendError 0
  else if req.type ∉ Evhttp.allowedMethods then .sendError HTTP_NOTIMPLEMENTED
  else
    match s.htpServ.find (translated req) with
    | some cb => requestHandler cb.2 req.type
    | none => s.generic

end HttpServer

/-! ## Registrations -/

/-- A call of `get`, `post` or `gen`. -/
inductive Registration (κ : Type*) where
  | get (path : CString) (cb : κ)
  | post (path : CString) (cb : κ)
  | gen (cb : Option κ)

namespace Registration

/-- What is registered for a path: a method and its callback. -/
def route (path : CString) : Registration κ → Option (EvhttpCmdType × κ)
  | .get p cb => if p = path then some (.GET, cb) else none
  | .post p cb => if p = path then some (.POST, cb) else none
  | .gen _ => none

def apply (s : HttpServer κ) : Registration κ → HttpServer κ
  | .get path cb => s.get path cb
  | .post path cb => s.post path cb
  | .gen cb => s.gen cb

end Registration

/-- The server after some registrations. -/
def serverAfter (regs : List (Registration κ)) : HttpServer κ :=
  regs.foldl Registration.apply .init

/-- All that was registered for a path, in order. -/
def matching (regs : List (Registration κ)) (path : CString) : List (EvhttpCmdType × κ) :=
  regs.filterMap (Registration.route path)

/-- The callback most recently registered for a path and a method. -/
def latest (regs : List (Registration κ)) (path : CString) (cmd : EvhttpCmdType) : Option κ :=
  (((matching regs path).filter fun r => r.1 = cmd).getLast?).map Prod.snd

/-! ## What evhttp holds -/

namespace Evhttp

theorem find_setCb (http : Evhttp κ) (uri p : CString) (cbarg : HttpMethodSignature κ) :
    (http.setCb uri cbarg).1.find p =
      (http.find p).or (if uri = p then some (uri, cbarg) else none) := by
  unfold setCb
  split
  · rename_i cb hcb
    by_cases hp : uri = p
    · subst hp
      simp [hcb]
    · simp [hp]
  · simp only [find, List.find?_append]
    congr 1
    by_cases hp : uri = p
    · simp [hp]
    · simp [hp]

theorem setCb_zero {http : Evhttp κ} {uri : CString} {cbarg : HttpMethodSignature κ} :
    (http.setCb uri cbarg).2 = 0 ↔ http.find uri = none := by
  unfold setCb
  split
  · rename_i cb hcb
    simp [hcb]
  · rename_i hnone
    simp [hnone]

end Evhttp

namespace HttpServer

/-- The method and the callback that a path is routed to. -/
def routeOf (s : HttpServer κ) (path : CString) : Option (EvhttpCmdType × κ) :=
  (s.htpServ.find path).map fun cb => (cb.2.cmd, cb.2.requestCb)

theorem doStore_htpServ (s : HttpServer κ) (path : CString) (cmd : EvhttpCmdType) (cb : κ) :
    (s.doStore path cmd cb).htpServ = (s.htpServ.setCb path ⟨path, cmd, cb⟩).1 := by
  simp only [doStore]
  split
  · split
    · rfl
    · rfl
  · rfl

/-- Only `gen` sets the generic callback. -/
@[simp] theorem generic_doStore (s : HttpServer κ) (path : CString) (cmd : EvhttpCmdType)
    (cb : κ) : (s.doStore path cmd cb).generic = s.generic := by
  have hgencb : (s.doStore path cmd cb).htpServ.gencb = s.htpServ.gencb := by
    rw [doStore_htpServ]
    unfold Evhttp.setCb
    split
    · rfl
    · rfl
  have hgenCb : (s.doStore path cmd cb).genCb = s.genCb := by
    simp only [doStore]
    split
    · split
      · rfl
      · rfl
    · rfl
  rw [generic, generic, genHandler, genHandler, hgencb, hgenCb]

theorem routeOf_doStore (s : HttpServer κ) (path p : CString) (cmd : EvhttpCmdType) (cb : κ) :
    (s.doStore path cmd cb).routeOf p =
      (s.routeOf p).or (if path = p then some (cmd, cb) else none) := by
  unfold routeOf
  rw [doStore_htpServ, Evhttp.find_setCb]
  cases hf : s.htpServ.find p with
  | some c => rfl
  | none =>
      by_cases hp : path = p
      · simp [hp]
      · simp [hp]

theorem routeOf_apply (s : HttpServer κ) (reg : Registration κ) (p : CString) :
    (reg.apply s).routeOf p = (s.routeOf p).or (reg.route p) := by
  cases reg with
  | get path cb => exact routeOf_doStore s path p .GET cb
  | post path cb => exact routeOf_doStore s path p .POST cb
  | gen cb => exact (Option.or_none).symm

theorem routeOf_foldl (s : HttpServer κ) (regs : List (Registration κ)) (p : CString) :
    (regs.foldl Registration.apply s).routeOf p = (s.routeOf p).or (matching regs p).head? := by
  induction regs generalizing s with
  | nil => exact (Option.or_none).symm
  | cons reg regs ih =>
      rw [List.foldl_cons, ih, routeOf_apply, Option.or_assoc]
      unfold matching
      cases hr : reg.route p with
      | none => simp [hr]
      | some r => simp [hr]

/-- **A path is routed to its first registration, for good.** -/
theorem routeOf_serverAfter (regs : List (Registration κ)) (p : CString) :
    (serverAfter regs).routeOf p = (matching regs p).head? := by
  have h := routeOf_foldl (init : HttpServer κ) regs p
  exact h

/-- `_method` holds the signatures that evhttp was given. -/
def Agree (s : HttpServer κ) : Prop :=
  ∀ p, s.method.lookup p = (s.htpServ.find p).map Prod.snd

theorem agree_doStore {s : HttpServer κ} (h : Agree s) (path : CString) (cmd : EvhttpCmdType)
    (cb : κ) : Agree (s.doStore path cmd cb) := by
  intro p
  rw [doStore_htpServ, Evhttp.find_setCb]
  simp only [doStore]
  by_cases hr : (s.htpServ.setCb path ⟨path, cmd, cb⟩).2 = 0
  · have hnone := Evhttp.setCb_zero.mp hr
    have hlook : s.method.lookup path = none := by rw [h, hnone, Option.map_none]
    rw [if_pos hr, hlook]
    by_cases hp : path = p
    · subst hp
      simp [hnone]
    · simp only [if_neg hp, Option.or_none]
      rw [AList.lookup_insert_ne (Ne.symm hp)]
      exact h p
  · obtain ⟨c, hc⟩ := Option.ne_none_iff_exists'.mp fun hn => hr (Evhttp.setCb_zero.mpr hn)
    rw [if_neg hr]
    by_cases hp : path = p
    · subst hp
      simp only [h path, hc, Option.some_or]
    · simp only [if_neg hp, Option.or_none]
      exact h p

theorem agree_apply {s : HttpServer κ} (h : Agree s) (reg : Registration κ) :
    Agree (reg.apply s) := by
  cases reg with
  | get path cb => exact agree_doStore h path .GET cb
  | post path cb => exact agree_doStore h path .POST cb
  | gen cb => exact h

theorem agree_serverAfter (regs : List (Registration κ)) : Agree (serverAfter regs) := by
  apply Runs.invariant
  · intro p
    rfl
  · intro s reg hs
    exact agree_apply hs reg

/-- **`__doStore` never comes to overwrite an entry of `_method`.** -/
theorem doStore_inserts (regs : List (Registration κ)) {path : CString}
    {signature : HttpMethodSignature κ}
    (hr : ((serverAfter regs).htpServ.setCb path signature).2 = 0) :
    (serverAfter regs).method.lookup path = none := by
  rw [agree_serverAfter regs path, Evhttp.setCb_zero.mp hr, Option.map_none]

end HttpServer

/-! ## Routing by the latest registration -/

/-- What a request is answered with after some registrations. -/
def actionFor (regs : List (Registration κ)) (req : EvhttpRequest) : Action κ :=
  (serverAfter regs).handleRequest req

/--
A request goes to the callback most recently registered for its path and its
method. It is told that the method is not supported only if the path is
registered, and not for that method.
-/
structure Routed (regs : List (Registration κ)) (req : EvhttpRequest) : Prop where
  callback : ∀ cb, actionFor regs req = .invoke cb ↔
    latest regs (HttpServer.translated req) req.type = some cb
  refused : actionFor regs req = .sendReply (unsupported req.type) →
    latest regs (HttpServer.translated req) req.type = none ∧
      matching regs (HttpServer.translated req) ≠ []

/--
If there is a callback for the path and the method of the request, then the first
thing ever registered for that path was this method, with the callback that is
registered for the two last.
-/
def Unambiguous (regs : List (Registration κ)) (req : EvhttpRequest) : Prop :=
  ∀ cb, latest regs (HttpServer.translated req) req.type = some cb →
    (matching regs (HttpServer.translated req)).head? = some (req.type, cb)

theorem latest_isSome_of_mem {regs : List (Registration κ)} {path : CString}
    {cmd : EvhttpCmdType} {cb : κ} (h : (cmd, cb) ∈ matching regs path) :
    ∃ cb', latest regs path cmd = some cb' := by
  have hne : (matching regs path).filter (fun r => decide (r.1 = cmd)) ≠ [] := by
    intro hnil
    have hmem : (cmd, cb) ∈ (matching regs path).filter (fun r => decide (r.1 = cmd)) :=
      List.mem_filter.mpr ⟨h, by simp⟩
    rw [hnil] at hmem
    cases hmem
  exact ⟨_, by rw [latest, List.getLast?_eq_some_getLast hne, Option.map_some]⟩

theorem HttpServer.handleRequest_of_routeOf {s : HttpServer κ} {req : EvhttpRequest}
    (hcmd : req.type = .GET ∨ req.type = .POST) :
    s.handleRequest req =
      match s.routeOf (translated req) with
      | some (cmd, cb) =>
          if cmd = req.type then .invoke cb else .sendReply (unsupported req.type)
      | none => s.generic := by
  unfold handleRequest routeOf
  rcases hcmd with hcmd | hcmd
  all_goals
    rw [hcmd, if_neg (by decide), if_neg (by decide)]
    cases s.htpServ.find (translated req) with
    | none => rfl
    | some cb => rfl

/-- What can become of a request. -/
theorem HttpServer.handleRequest_cases (s : HttpServer κ) (req : EvhttpRequest) :
    (∃ code, s.handleRequest req = .sendError code) ∨
      (∃ cb, s.routeOf (translated req) = some (req.type, cb) ∧
        s.handleRequest req = .invoke cb) ∨
      s.handleRequest req = .sendReply (unsupported req.type) ∨
      s.handleRequest req = s.generic := by
  by_cases hcmd : req.type = .GET ∨ req.type = .POST
  · rw [handleRequest_of_routeOf hcmd]
    cases hr : s.routeOf (translated req) with
    | none => exact Or.inr (Or.inr (Or.inr rfl))
    | some r =>
        rcases r with ⟨cmd, cb⟩
        by_cases hc : cmd = req.type
        · exact Or.inr (Or.inl ⟨cb, by rw [hc], if_pos hc⟩)
        · exact Or.inr (Or.inr (Or.inl (if_neg hc)))
  · -- `__requestHandler` refuses every other method
    have hrefuse : ∀ signature : HttpMethodSignature κ,
        requestHandler signature req.type = .sendReply (unsupported req.type) := by
      intro signature
      unfold requestHandler
      split
      · rename_i hget
        exact absurd (Or.inl hget) hcmd
      · rename_i hpost
        exact absurd (Or.inr hpost) hcmd
      · rfl
    unfold handleRequest
    split
    · exact Or.inl ⟨_, rfl⟩
    · split
      · exact Or.inl ⟨_, rfl⟩
      · split
        · exact Or.inr (Or.inr (Or.inl (hrefuse _)))
        · exact Or.inr (Or.inr (Or.inr rfl))

/-- What a request finds is the first registration of its path. -/
theorem actionFor_eq (regs : List (Registration κ)) {req : EvhttpRequest}
    (hcmd : req.type = .GET ∨ req.type = .POST) :
    actionFor regs req =
      match (matching regs (HttpServer.translated req)).head? with
      | some (cmd, cb) =>
          if cmd = req.type then .invoke cb else .sendReply (unsupported req.type)
      | none => (serverAfter regs).generic := by
  rw [actionFor, HttpServer.handleRequest_of_routeOf hcmd, HttpServer.routeOf_serverAfter]

/-- A path without registrations is left to the generic callback, or not found. -/
theorem HttpServer.generic_cases (s : HttpServer κ) :
    (∃ cb, s.generic = .invokeGen cb) ∨ s.generic = .ignore ∨
      s.generic = .sendError HTTP_NOTFOUND := by
  unfold generic genHandler
  split
  · split
    · exact Or.inl ⟨_, rfl⟩
    · exact Or.inr (Or.inl rfl)
  · exact Or.inr (Or.inr rfl)

theorem actionFor_eq_invoke_iff (regs : List (Registration κ)) {req : EvhttpRequest}
    (hcmd : req.type = .GET ∨ req.type = .POST) (cb : κ) :
    actionFor regs req = .invoke cb ↔
      (matching regs (HttpServer.translated req)).head? = some (req.type, cb) := by
  rw [actionFor_eq regs hcmd]
  cases hm : (matching regs (HttpServer.translated req)).head? with
  | none =>
      rcases (serverAfter regs).generic_cases with ⟨cb', hg⟩ | hg | hg
      all_goals simp [hg]
  | some r =>
      rcases r with ⟨cmd, cb'⟩
      by_cases hc : cmd = req.type
      · simp [hc]
      · simp [hc]

/--
**What a path answers is its first registration.**

A request is routed as the registrations say last exactly when they are unambiguous
about it. A second registration of a path is refused by evhttp, and `__doStore` does
not tell: so a path that is registered for GET and POST answers only the earlier
of the two, and a new callback for a path and method never takes effect.
-/
theorem routed_iff_unambiguous (regs : List (Registration κ)) (req : EvhttpRequest)
    (hcmd : req.type = .GET ∨ req.type = .POST) :
    Routed regs req ↔ Unambiguous regs req := by
  constructor
  · intro h cb hcb
    exact (actionFor_eq_invoke_iff regs hcmd cb).mp ((h.callback cb).mpr hcb)
  · intro h
    refine ⟨fun cb => ⟨fun hinv => ?_, fun hcb => ?_⟩, fun hrep => ?_⟩
    · have hhead := (actionFor_eq_invoke_iff regs hcmd cb).mp hinv
      obtain ⟨cb', hcb'⟩ := latest_isSome_of_mem (List.mem_of_mem_head? hhead)
      have hsame : some (req.type, cb') = some (req.type, cb) := by rw [← h cb' hcb', hhead]
      rw [hcb']
      exact congrArg (Option.map Prod.snd) hsame
    · exact (actionFor_eq_invoke_iff regs hcmd cb).mpr (h cb hcb)
    · constructor
      · -- a callback for the pair would be the head, and would be invoked
        rw [← Option.not_isSome_iff_eq_none, Option.isSome_iff_exists]
        rintro ⟨cb, hcb⟩
        have hinv := (actionFor_eq_invoke_iff regs hcmd cb).mpr (h cb hcb)
        rw [hrep] at hinv
        cases hinv
      · intro hnil
        rw [actionFor_eq regs hcmd, hnil, List.head?_nil] at hrep
        rcases (serverAfter regs).generic_cases with ⟨cb', hg⟩ | hg | hg
        all_goals
          rw [hg] at hrep
          cases hrep

/-- With one registration for each path the requests go where they were registered to go. -/
theorem routed_get_add :
    Routed [.post (CString.lit "/login") 0, .get (CString.lit "/add") 1]
      ⟨.GET, CString.lit "/add?a=1", CString.lit "/add", none, []⟩ := by
  apply (routed_iff_unambiguous _ _ (Or.inl rfl)).mpr
  intro cb hcb
  have h1 : latest [.post (CString.lit "/login") 0, .get (CString.lit "/add") 1]
      (HttpServer.translated
        ⟨.GET, CString.lit "/add?a=1", CString.lit "/add", none, []⟩) .GET = some 1 := by decide
  rw [h1] at hcb
  cases hcb
  decide

/-- After `post` and `get` of one path, a GET is told that GET is not supported. -/
theorem not_routed_second_method :
    ¬Routed [.post (CString.lit "/x") 0, .get (CString.lit "/x") 1]
      ⟨.GET, CString.lit "/x", CString.lit "/x", none, []⟩ := by
  intro h
  have hinv : actionFor [.post (CString.lit "/x") 0, .get (CString.lit "/x") 1]
      ⟨.GET, CString.lit "/x", CString.lit "/x", none, []⟩ = .invoke 1 :=
    (h.callback 1).mpr (by decide)
  exact absurd hinv (by decide)

end NanomsgDemo.Http

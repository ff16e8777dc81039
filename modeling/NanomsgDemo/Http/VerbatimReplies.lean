import NanomsgDemo.Http.QueryDecoders
import NanomsgDemo.Http.HttpServerBusiness

/-!
# Replies that are sent as they are

`lw_http_send_reply` hands its text to `evbuffer_add_printf` as the format, and
`login_post_cb` makes that text from what the client has posted. A text is sent as it
is exactly if it has no `%` in it (`lwHttpSendReply_verbatim_iff`), and the JSON that
is written has one exactly if one of its strings has (`percent_mem_writeObject`).
-/

namespace NanomsgDemo.Http

open Net (Byte CString chr text)
open Format
open Tokens

/-! ## Formats that stand for themselves -/

/-- A format stands for no more bytes than it has, and for fewer if there is a `%` in it. -/
theorem length_expand {fmt buf : List Byte} (h : expand fmt = some buf) :
    buf.length ≤ fmt.length ∧ (percent ∈ fmt → buf.length < fmt.length) := by
  fun_induction expand fmt generalizing buf with
  | case1 =>
      cases h
      simp
  | case2 fmt' ih =>
      obtain ⟨buf', hbuf', rfl⟩ := Option.map_eq_some_iff.mp h
      have := (ih hbuf').1
      simp only [List.length_cons]
      omega
  | case3 d fmt' hd => cases h
  | case4 => cases h
  | case5 c fmt hc ih =>
      obtain ⟨buf', hbuf', rfl⟩ := Option.map_eq_some_iff.mp h
      obtain ⟨hle, hlt⟩ := ih hbuf'
      simp only [List.length_cons, List.mem_cons]
      refine ⟨by omega, fun hmem => ?_⟩
      rcases hmem with hmem | hmem
      · exact absurd hmem.symm hc
      · have := hlt hmem
        omega

theorem expand_plain {fmt : List Byte} (h : percent ∉ fmt) : expand fmt = some fmt := by
  induction fmt with
  | nil => rfl
  | cons c fmt ih =>
      have hc : c ≠ percent := fun he => h (he ▸ List.mem_cons_self)
      rw [expand_cons hc, ih fun hm => h (List.mem_cons_of_mem _ hm), Option.map_some]

theorem expand_eq_self_iff (fmt : List Byte) : expand fmt = some fmt ↔ percent ∉ fmt :=
  ⟨fun h hmem => absurd ((length_expand h).2 hmem) (Nat.lt_irrefl _), expand_plain⟩

/-- The reply whose body is a text. -/
def verbatim (what : List Byte) : Reply :=
  .reply (some "text/plain; charset=UTF-8") HTTP_OK what

/-- **A text is sent as it is exactly if there is no `%` in it.** -/
theorem lwHttpSendReply_verbatim_iff (what : List Byte) :
    lwHttpSendReply what = some (verbatim what) ↔ percent ∉ what := by
  rw [← expand_eq_self_iff, lwHttpSendReply, evbufferAddPrintf]
  cases expand what with
  | none => simp
  | some buf => simp [verbatim]

/-! ## The JSON -/

theorem percent_mem_writeChar (c : Byte) : percent ∈ writeChar c ↔ c = percent := by
  by_cases hc : c = percent
  · subst hc
    rw [writeChar_percent]
    simp
  · obtain ⟨d, u, hu, hplain⟩ := writeChar_plain hc
    rw [hu]
    exact iff_of_false hplain hc

theorem percent_mem_writeString (s : List Byte) : percent ∈ writeString s ↔ percent ∈ s := by
  have hq : percent ≠ 0x22 := by decide
  simp [writeString, hq, percent_mem_writeChar]

theorem percent_mem_writeMembers (ms : List (List Byte × List Byte)) :
    percent ∈ writeMembers ms ↔ ∃ m ∈ ms, percent ∈ m.1 ∨ percent ∈ m.2 := by
  have hcolon : percent ≠ chr ':' := by decide
  have hcomma : percent ≠ chr ',' := by decide
  fun_induction writeMembers ms with
  | case1 => simp
  | case2 k v => simp [percent_mem_writeString, hcolon]
  | case3 k v ms hms ih =>
      simp [percent_mem_writeString, hcolon, hcomma, ih, or_assoc]

/-- A `%` in the text of an object is from one of its strings. -/
theorem percent_mem_writeObject (ms : List (List Byte × List Byte)) :
    percent ∈ writeObject ms ↔ ∃ m ∈ ms, percent ∈ m.1 ∨ percent ∈ m.2 := by
  have hopen : percent ≠ chr '\x7b' := by decide
  have hclose : percent ≠ chr '\x7d' := by decide
  simp [writeObject, hopen, hclose, percent_mem_writeMembers]

/-! ## `login_post_cb` -/

/-- The text for a host and the pairs that have been posted. -/
def loginText (host : CString) (kv : KVQueryUrlValue) : List Byte :=
  writeObject ((stringValue (CString.lit "host"), stringValue host) ::
    kv.kv.map fun pkv => (stringValue pkv.1, stringValue pkv.2))

/-- The pairs that have been posted. -/
def posted (req : EvhttpRequest) : KVQueryUrlValue := (KVQueryUrlValue.parse (loginBuff req)).1

/-- What a client has posted is defined to come back as JSON, and nothing else does. -/
def LoginVerbatim (req : EvhttpRequest) : Prop :=
  ∃ replies, loginPostCb req = some replies ∧
    ∀ reply ∈ replies, ∃ host, req.host = some host ∧
      reply = verbatim (loginText host (posted req))

/--
A form that can be sent back: it fits, and there is no `%` in the host or in one of the
segments up to the first that is not a pair, behind a second `=` apart.
-/
structure PostedPlain (req : EvhttpRequest) : Prop where
  body_fits : (dataLen req).toInt < POST_BUF_MAX
  host : ∃ host, req.host = some host ∧ percent ∉ stringValue host
  fields : ∀ k v, k ++ chr '=' :: v ∈ (segments (loginBuff req)).takeWhile (IsPair ·) →
    chr '=' ∉ k → percent ∉ k ∧ percent ∉ v.takeWhile (· ≠ chr '=')

/-- The pairs that have been posted are what these segments say. -/
theorem mem_posted_iff {req : EvhttpRequest} {pkv : CString × CString} :
    pkv ∈ (posted req).kv ↔
      ∃ k v, k ++ chr '=' :: v ∈ (segments (loginBuff req)).takeWhile (IsPair ·) ∧
        chr '=' ∉ k ∧
        pkv = (CString.ofBuffer k, CString.ofBuffer (v.takeWhile (· ≠ chr '='))) := by
  have hpairs : ∀ seg, decide (IsPair seg) = true ↔ KVQueryUrlValue.pair seg ≠ none := by
    simp [pair_ne_none_iff]
  rw [posted, parse_kv_eq, mem_leading_iff hpairs]
  constructor
  · rintro ⟨seg, hseg, hpair⟩
    obtain ⟨k, v, rfl, hk, hv⟩ : IsPair seg := pair_ne_none_iff.mp (by simp [hpair])
    rw [pair_cut hk hv] at hpair
    exact ⟨k, v, hseg, hk, (Option.some.inj hpair).symm⟩
  · rintro ⟨k, v, hseg, hk, rfl⟩
    have hpair : IsPair (k ++ chr '=' :: v) := of_decide_eq_true (List.mem_takeWhile_imp hseg :)
    exact ⟨_, hseg, pair_cut hk ((isPair_cut_iff hk).mp hpair)⟩

/-- A piece of a form that fits is a value as it is. -/
theorem stringValue_piece {req : EvhttpRequest} {s : List Byte}
    (hfits : (dataLen req).toInt < POST_BUF_MAX) (h : s <:+: (loginBuff req).bytes) :
    stringValue (CString.ofBuffer s) = s := by
  have hlen : s.length ≤ (dataLen req).toInt.toNat := by
    refine h.length_le.trans ((List.takeWhile_prefix _).length_le.trans ?_)
    rw [List.length_take]
    omega
  have hshort : s.length < 2 ^ 32 := by
    rw [POST_BUF_MAX] at hfits
    omega
  rw [stringValue, CString.bytes_ofBuffer fun c hc => (loginBuff req).nonzero c (h.subset hc),
    Nat.mod_eq_of_lt hshort, List.take_length]

/-- The fields that are sent back have a `%` exactly if the segments have one. -/
theorem fields_plain_iff {req : EvhttpRequest} (hfits : (dataLen req).toInt < POST_BUF_MAX) :
    (∀ pkv ∈ (posted req).kv, percent ∉ stringValue pkv.1 ∧ percent ∉ stringValue pkv.2) ↔
      ∀ k v, k ++ chr '=' :: v ∈ (segments (loginBuff req)).takeWhile (IsPair ·) →
        chr '=' ∉ k → percent ∉ k ∧ percent ∉ v.takeWhile (· ≠ chr '=') := by
  have hpieces : ∀ {k v : List Byte},
      k ++ chr '=' :: v ∈ (segments (loginBuff req)).takeWhile (IsPair ·) →
      stringValue (CString.ofBuffer k) = k ∧
        stringValue (CString.ofBuffer (v.takeWhile (· ≠ chr '='))) =
          v.takeWhile (· ≠ chr '=') := by
    intro k v hseg
    have hinfix : k ++ chr '=' :: v <:+: (loginBuff req).bytes :=
      infix_of_mem_tokens ((List.takeWhile_prefix _).subset hseg)
    have hk : k <:+: k ++ chr '=' :: v := (List.prefix_append _ _).isInfix
    have hv : v <:+: k ++ chr '=' :: v := ⟨k ++ [chr '='], [], by simp⟩
    exact ⟨stringValue_piece hfits (hk.trans hinfix),
      stringValue_piece hfits (((List.takeWhile_prefix _).isInfix.trans hv).trans hinfix)⟩
  constructor
  · intro h k v hseg hk
    have hpkv := h _ (mem_posted_iff.mpr ⟨k, v, hseg, hk, rfl⟩)
    rwa [(hpieces hseg).1, (hpieces hseg).2] at hpkv
  · intro h pkv hpkv
    obtain ⟨k, v, hseg, hk, rfl⟩ := mem_posted_iff.mp hpkv
    rw [(hpieces hseg).1, (hpieces hseg).2]
    exact h k v hseg hk

theorem percent_notMem_loginText {host : CString} {kv : KVQueryUrlValue} :
    percent ∉ loginText host kv ↔ percent ∉ stringValue host ∧
      ∀ pkv ∈ kv.kv, percent ∉ stringValue pkv.1 ∧ percent ∉ stringValue pkv.2 := by
  have hname : percent ∉ stringValue (CString.lit "host") := by decide
  rw [loginText, percent_mem_writeObject]
  simp [hname]

section Host

variable {req : EvhttpRequest} {host : CString}

theorem loginPostCb_host (hpos : ¬dataLen req ≤ 0) (hfits : (dataLen req).toInt < POST_BUF_MAX)
    (hhost : req.host = some host) :
    loginPostCb req =
      (lwHttpSendReply (loginText host (posted req))).map fun reply => [reply] := by
  have hcb := loginPostCb_fits hpos hfits
  rw [hhost] at hcb
  exact hcb

/-- With a host and a body that fits, the text decides. -/
theorem postedPlain_host (hfits : (dataLen req).toInt < POST_BUF_MAX)
    (hhost : req.host = some host) :
    PostedPlain req ↔ percent ∉ loginText host (posted req) := by
  rw [percent_notMem_loginText, fields_plain_iff hfits]
  constructor
  · intro h
    obtain ⟨host', hsome, hp⟩ := h.host
    rw [hhost] at hsome
    cases hsome
    exact ⟨hp, h.fields⟩
  · intro h
    exact ⟨hfits, ⟨host, hhost, h.1⟩, h.2⟩

theorem loginVerbatim_host (hpos : ¬dataLen req ≤ 0) (hfits : (dataLen req).toInt < POST_BUF_MAX)
    (hhost : req.host = some host) :
    LoginVerbatim req ↔ percent ∉ loginText host (posted req) := by
  have hcb := loginPostCb_host hpos hfits hhost
  rw [← lwHttpSendReply_verbatim_iff]
  constructor
  · rintro ⟨replies, hreplies, hall⟩
    rw [hcb] at hreplies
    obtain ⟨reply, hsend, rfl⟩ := Option.map_eq_some_iff.mp hreplies
    obtain ⟨host', hsome, hreply⟩ := hall reply (by simp)
    rw [hhost] at hsome
    cases hsome
    rw [hsend, hreply]
  · intro hsend
    rw [hsend] at hcb
    refine ⟨_, hcb, ?_⟩
    intro reply hreply
    obtain rfl := List.mem_singleton.mp hreply
    exact ⟨host, hhost, rfl⟩

end Host

theorem loginVerbatim_iff (req : EvhttpRequest) :
    LoginVerbatim req ↔ dataLen req ≤ 0 ∨ PostedPlain req := by
  by_cases hempty : dataLen req ≤ 0
  · exact iff_of_true ⟨[], loginPostCb_empty hempty, by simp⟩ (.inl hempty)
  rw [or_iff_right hempty]
  by_cases hfull : (POST_BUF_MAX : Int) ≤ (dataLen req).toInt
  · refine iff_of_false ?_ ?_
    · intro ⟨replies, hcb, _⟩
      rw [loginPostCb_full hempty hfull] at hcb
      cases hcb
    · intro h
      have := h.body_fits
      omega
  have hfits : (dataLen req).toInt < POST_BUF_MAX := by omega
  cases hhost : req.host with
  | none =>
      have hcb := loginPostCb_fits hempty hfits
      rw [hhost] at hcb
      refine iff_of_false ?_ ?_
      · intro ⟨replies, hcb', _⟩
        rw [hcb] at hcb'
        cases hcb'
      · intro h
        obtain ⟨host, hsome, _⟩ := h.host
        rw [hhost] at hsome
        cases hsome
  | some host => rw [loginVerbatim_host hempty hfits hhost, postedPlain_host hfits hhost]

/--
**Which replies are sent as they are.**

Those without a `%`. What `login_post_cb` sends is the JSON of the host and the pairs
exactly if none of these has one.
-/
theorem replies_verbatim_iff (what : CString) (req : EvhttpRequest) :
    (lwHttpSendReply what.bytes = some (verbatim what.bytes) ↔ percent ∉ what.bytes) ∧
    (LoginVerbatim req ↔ dataLen req ≤ 0 ∨ PostedPlain req) :=
  ⟨lwHttpSendReply_verbatim_iff what.bytes, loginVerbatim_iff req⟩

/-- Two `%` are sent as one, and a posted directive reads an argument that is not there. -/
theorem replies_not_verbatim :
    lwHttpSendReply (CString.lit "100%%").bytes = some (verbatim (text "100%")) ∧
    loginPostCb ⟨.POST, CString.lit "/login", CString.lit "/login",
      some (CString.lit "localhost"), text "a=%d"⟩ = none := by
  refine ⟨by decide, ?_⟩
  rw [loginPostCb_fits (by decide +kernel) (by decide +kernel), parse_eq]
  decide +kernel

end NanomsgDemo.Http

import NanomsgDemo.Http.HttpServerBusiness
import NanomsgDemo.Lib.Buffers
import NanomsgDemo.Lib.Tokens

/-!
# Bodies copied into buffers of a fixed size

`login_post_cb` of `PlatformHttpServer/http_server_business.cpp` copies the body of a
request into `buff[POST_BUF_MAX]`, `get_cb` of `GameServer/client_http.cpp` the body
of a response into `buf[1024]`, and both put a NUL behind it. The first limits what it
copies to the size of the buffer, so that the NUL of a body that fills it is written
behind the end. The second limits nothing.

The length of a body is converted to an `int` in the one and to an `ev_ssize_t` in the
other.
-/

namespace NanomsgDemo.Http

open Net (Byte CString)
open Buffers
open Tokens

/-- `evbuffer_pullup`: the bytes that are in one piece, `none` for a null pointer. -/
def evbufferPullup (body : List Byte) (size : Int) : Option (List Byte) :=
  let size := if size < 0 then body.length else size.toNat
  if size = 0 ∨ body.length < size then none else some (body.take size)

/--
What `login_post_cb` does with `buff`: the bytes in it, `some none` where it returns
before, and `none` where it writes outside.
-/
def loginPostCopy (buff : List Byte) (req : EvhttpRequest) : Option (Option (List Byte)) :=
  let data := evbufferPullup req.body (dataLen req).toInt
  if dataLen req ≤ 0 then some none
  else
    match data with
    | none => some none
    | some data =>
        let copyLen := min (dataLen req).toInt.toNat POST_BUF_MAX
        (storeAll buff 0 (data.take copyLen)).bind fun buff' =>
          (store buff' copyLen 0).map some

/-- `ev_ssize_t len = evbuffer_get_length(evbuf);` -/
def getLen (body : List Byte) : Int := (Int64.ofNat body.length).toInt

/-- What `get_cb` does with `buf`, where the NUL is written before the body. -/
def getCb (buf : List Byte) (body : List Byte) : Option (List Byte) :=
  (store buf (getLen body) 0).bind fun buf' =>
    match evbufferPullup body (getLen body) with
    | some data => storeAll buf' 0 (data.take (getLen body).toNat)
    | none => if getLen body = 0 then some buf' else none

/-! ## The string in a buffer -/

/-- A string ends at the first NUL, if that is among the bytes that are taken. -/
theorem ofBuffer_take {s a c : List Byte} {n : Nat} (hs : s = a ++ 0 :: c) (ha : (0 : Byte) ∉ a)
    (hn : a.length ≤ n) : (CString.ofBuffer (s.take n)).bytes = a := by
  show (s.take n).takeWhile (· ≠ 0) = a
  rw [hs, List.take_append, List.take_of_length_le hn, takeWhile_ne_append ha]
  cases n - a.length with
  | zero => simp
  | succ k => simp

/-- Without a NUL it has all the bytes that are taken. -/
theorem length_ofBuffer_take {s : List Byte} {m n : Nat} (h : (0 : Byte) ∉ s.take m)
    (hmn : m ≤ n) (hs : m ≤ s.length) : m ≤ (CString.ofBuffer (s.take n)).bytes.length := by
  have hsplit : s.take n = s.take m ++ (s.drop m).take (n - m) := by
    rw [← List.take_add, Nat.add_sub_cancel' hmn]
  show m ≤ ((s.take n).takeWhile (· ≠ 0)).length
  rw [hsplit, takeWhile_ne_append h, List.length_append, List.length_take]
  omega

/--
A body whose length is taken to be `len` makes the string it should in a buffer of
`cap` bytes.
-/
def Fits (cap : Nat) (len : Int) (body : List Byte) : Prop :=
  len < cap ∧ (len = body.length ∨ len + 1 = cap ∨ (0 : Byte) ∈ body.take (len.toNat + 1))

/-- The string is the body, up to what fits. -/
theorem ofBuffer_take_iff {body : List Byte} {cap n : Nat} (hn : n < cap) (hlen : n ≤ body.length) :
    CString.ofBuffer (body.take n) = CString.ofBuffer (body.take (cap - 1)) ↔
      Fits cap n body := by
  unfold Fits
  rw [Int.toNat_natCast]
  constructor
  · intro heq
    refine ⟨by omega, ?_⟩
    by_contra hnot
    obtain ⟨hall, hfull, hnul⟩ : (n : Int) ≠ body.length ∧ (n : Int) + 1 ≠ cap ∧
        (0 : Byte) ∉ body.take (n + 1) := by
      refine ⟨fun h => hnot (.inl h), fun h => hnot (.inr (.inl h)), fun h => hnot (.inr (.inr h))⟩
    -- one byte more would fit
    have hmore := length_ofBuffer_take hnul (by omega : n + 1 ≤ cap - 1) (by omega)
    have hless : (CString.ofBuffer (body.take n)).bytes.length ≤ n := by
      refine le_trans (List.takeWhile_prefix _).length_le ?_
      rw [List.length_take]
      omega
    rw [heq] at hless
    omega
  · rintro ⟨_, hall | hfull | hnul⟩
    · rw [List.take_of_length_le (by omega), List.take_of_length_le (by omega)]
    · rw [show n = cap - 1 by omega]
    · obtain ⟨a, c, hac, ha⟩ := List.eq_append_cons_of_mem hnul
      have hlt : a.length ≤ n := by
        have := congrArg List.length hac
        simp only [List.length_take, List.length_append, List.length_cons] at this
        omega
      have hbody : body = a ++ 0 :: (c ++ body.drop (n + 1)) := by
        rw [← List.cons_append, ← List.append_assoc, ← hac, List.take_append_drop]
      apply CString.ext_bytes
      rw [ofBuffer_take hbody ha hlt, ofBuffer_take hbody ha (by omega)]

/-- Behind a NUL nothing counts. -/
theorem ofBuffer_append_nul (s rest : List Byte) :
    CString.ofBuffer (s ++ 0 :: rest) = CString.ofBuffer s := by
  apply CString.ext_bytes
  show (s ++ 0 :: rest).takeWhile (· ≠ 0) = s.takeWhile (· ≠ 0)
  rw [List.takeWhile_append]
  split
  · rename_i hall
    rw [List.takeWhile_cons_of_neg (by simp), List.append_nil]
    exact ((List.takeWhile_prefix _).eq_of_length hall).symm
  · rfl

/-- A buffer in front of an index that is inside, and behind it. -/
theorem buffer_split {buf : List Byte} {n : Nat} (h : n < buf.length) :
    ∃ old b rest, old.length = n ∧ buf = old ++ b :: rest := by
  refine ⟨buf.take n, buf[n], buf.drop (n + 1), by rw [List.length_take]; omega, ?_⟩
  rw [List.cons_getElem_drop_succ, List.take_append_drop]

/-- Bytes and the NUL behind them. -/
theorem storeAll_store {buf s : List Byte} (h : s.length < buf.length) :
    ∃ rest, (storeAll buf 0 s).bind (fun buf' => store buf' s.length 0) =
      some (s ++ 0 :: rest) := by
  obtain ⟨old, b, rest, hold, rfl⟩ := buffer_split h
  have hall : storeAll ([] ++ old ++ b :: rest) ([] : List Byte).length s =
      some ([] ++ s ++ b :: rest) := storeAll_append hold
  rw [List.nil_append, List.nil_append] at hall
  refine ⟨rest, ?_⟩
  exact (congrArg (Option.bind · fun buf' => store buf' s.length 0) hall).trans store_append

/-- The NUL first and the bytes in front of it afterwards. -/
theorem store_storeAll {buf s : List Byte} (h : s.length < buf.length) :
    ∃ rest, (store buf s.length 0).bind (fun buf' => storeAll buf' 0 s) =
      some (s ++ 0 :: rest) := by
  obtain ⟨old, b, rest, hold, rfl⟩ := buffer_split h
  have hall : storeAll ([] ++ old ++ 0 :: rest) ([] : List Byte).length s =
      some ([] ++ s ++ 0 :: rest) := storeAll_append hold
  refine ⟨rest, ?_⟩
  rw [← hold, store_append]
  exact hall

/-! ## `login_post_cb` -/

section Login

variable {buff : List Byte} {req : EvhttpRequest}

/-- The length is not taken to be more than it is. -/
theorem dataLen_le (req : EvhttpRequest) : (dataLen req).toInt ≤ req.body.length :=
  Net.int32_toInt_le req.body.length

/-- Where there is a length there are bytes. -/
theorem evbufferPullup_pos {body : List Byte} {size : Int} (h : 0 < size)
    (hle : size ≤ body.length) : evbufferPullup body size = some (body.take size.toNat) := by
  have hsize : (if size < 0 then body.length else size.toNat) = size.toNat := if_neg (by omega)
  simp only [evbufferPullup, hsize]
  exact if_neg (by omega)

theorem loginPostCopy_pos (hpos : ¬dataLen req ≤ 0) :
    loginPostCopy buff req =
      let copyLen := min (dataLen req).toInt.toNat POST_BUF_MAX
      (storeAll buff 0 (req.body.take copyLen)).bind fun buff' =>
        (store buff' copyLen 0).map some := by
  have hdata := evbufferPullup_pos (dataLen_toInt_pos hpos) (dataLen_le req)
  rw [loginPostCopy, if_neg hpos, hdata]
  dsimp only
  rw [List.take_take, Nat.min_eq_left (Nat.min_le_left _ _)]

/-- A body that is shorter than `buff` is there with its NUL. -/
theorem loginPostCopy_fits (hbuff : buff.length = POST_BUF_MAX) (hpos : ¬dataLen req ≤ 0)
    (hfits : (dataLen req).toInt < POST_BUF_MAX) :
    ∃ b, loginPostCopy buff req = some (some b) ∧ CString.ofBuffer b = loginBuff req := by
  have hle := dataLen_le req
  have hint := dataLen_toInt_pos hpos
  have hcopy : min (dataLen req).toInt.toNat POST_BUF_MAX = (dataLen req).toInt.toNat := by omega
  have hlen : (req.body.take (dataLen req).toInt.toNat).length = (dataLen req).toInt.toNat := by
    rw [List.length_take]
    omega
  obtain ⟨rest, hstore⟩ : ∃ rest, _ := storeAll_store
    (by rw [hlen, hbuff]; omega : (req.body.take (dataLen req).toInt.toNat).length < buff.length)
  rw [hlen] at hstore
  refine ⟨req.body.take (dataLen req).toInt.toNat ++ 0 :: rest, ?_, ofBuffer_append_nul _ _⟩
  rw [loginPostCopy_pos hpos, hcopy]
  exact (Option.map_bind ..).symm.trans (congrArg (Option.map some) hstore)

/-- The NUL of any longer one is written behind the end. -/
theorem loginPostCopy_full (hbuff : buff.length = POST_BUF_MAX) (hpos : ¬dataLen req ≤ 0)
    (hfull : (POST_BUF_MAX : Int) ≤ (dataLen req).toInt) : loginPostCopy buff req = none := by
  have hcopy : min (dataLen req).toInt.toNat POST_BUF_MAX = POST_BUF_MAX := by omega
  rw [loginPostCopy_pos hpos, hcopy]
  apply Option.bind_eq_none_iff.mpr
  intro buff' hall
  have hlen := (length_storeAll hall).trans hbuff
  rw [store_eq_none (.inr (by omega)), Option.map_none]

/-- `login_post_cb` is undefined with the copy, returns with it, or goes on with the string. -/
theorem loginPostCb_of_copy (hbuff : buff.length = POST_BUF_MAX) :
    match loginPostCopy buff req with
    | none => loginPostCb req = none
    | some none => loginPostCb req = some []
    | some (some b) => CString.ofBuffer b = loginBuff req := by
  by_cases hempty : dataLen req ≤ 0
  · have hcopy : loginPostCopy buff req = some none := if_pos hempty
    rw [hcopy]
    exact loginPostCb_empty hempty
  by_cases hfull : (POST_BUF_MAX : Int) ≤ (dataLen req).toInt
  · rw [loginPostCopy_full hbuff hempty hfull]
    exact loginPostCb_full hempty hfull
  · obtain ⟨b, hcopy, hb⟩ := loginPostCopy_fits hbuff hempty (by omega)
    rw [hcopy]
    exact hb

/-- `buff` is kept to, and holds the body up to what fits. -/
def LoginCopies (req : EvhttpRequest) : Prop :=
  ∀ buff : List Byte, buff.length = POST_BUF_MAX →
    ∃ copied, loginPostCopy buff req = some copied ∧
      ∀ b ∈ copied, CString.ofBuffer b = CString.ofBuffer (req.body.take (POST_BUF_MAX - 1))

theorem loginCopies_iff (req : EvhttpRequest) :
    LoginCopies req ↔
      dataLen req ≤ 0 ∨ Fits POST_BUF_MAX (dataLen req).toInt req.body := by
  by_cases hempty : dataLen req ≤ 0
  · exact iff_of_true (fun buff _ => ⟨none, if_pos hempty, by simp⟩) (.inl hempty)
  have hsome : ∃ buff : List Byte, buff.length = POST_BUF_MAX :=
    ⟨List.replicate POST_BUF_MAX 0, List.length_replicate⟩
  have hint := dataLen_toInt_pos hempty
  have hle := dataLen_le req
  by_cases hfull : (POST_BUF_MAX : Int) ≤ (dataLen req).toInt
  · refine iff_of_false ?_ ?_
    · intro hall
      obtain ⟨buff, hbuff⟩ := hsome
      obtain ⟨copied, hcopy, _⟩ := hall buff hbuff
      rw [loginPostCopy_full hbuff hempty hfull] at hcopy
      cases hcopy
    · rintro (h | ⟨hlt, _⟩)
      · exact hempty h
      · omega
  · have hstring := ofBuffer_take_iff (by omega : (dataLen req).toInt.toNat < POST_BUF_MAX)
      (by omega : (dataLen req).toInt.toNat ≤ req.body.length)
    rw [Int.toNat_of_nonneg (by omega)] at hstring
    rw [or_iff_right hempty, ← hstring]
    constructor
    · intro hall
      obtain ⟨buff, hbuff⟩ := hsome
      obtain ⟨b, hcopy, hb⟩ := loginPostCopy_fits hbuff hempty (by omega)
      obtain ⟨copied, hcopied, hwhole⟩ := hall buff hbuff
      rw [hcopy] at hcopied
      cases hcopied
      exact hb.symm.trans (hwhole b rfl)
    · intro hwhole buff hbuff
      obtain ⟨b, hcopy, hb⟩ := loginPostCopy_fits hbuff hempty (by omega)
      refine ⟨some b, hcopy, ?_⟩
      intro b' hb'
      obtain rfl := Option.mem_some_iff.mp hb'
      exact hb.trans hwhole

end Login

/-! ## `get_cb` -/

/-- `buf` is kept to, and holds the body up to what fits. -/
def GetCopies (body : List Byte) : Prop :=
  ∀ buf : List Byte, buf.length = 1024 →
    ∃ b, getCb buf body = some b ∧ CString.ofBuffer b = CString.ofBuffer (body.take 1023)

theorem getLen_le (body : List Byte) : getLen body ≤ body.length := by
  rw [getLen, Int64.toInt_ofNat', Int.bmod_def]
  simp only [Int64.size]
  split <;> omega

/-- A body that is shorter than `buf` is there with its NUL. -/
theorem getCb_fits {buf body : List Byte} (hbuf : buf.length = 1024) (hpos : 0 ≤ getLen body)
    (hfits : getLen body < 1024) :
    ∃ b, getCb buf body = some b ∧
      CString.ofBuffer b = CString.ofBuffer (body.take (getLen body).toNat) := by
  have hle := getLen_le body
  have hlen : (body.take (getLen body).toNat).length = (getLen body).toNat := by
    rw [List.length_take]
    omega
  have hcast : ((body.take (getLen body).toNat).length : Int) = getLen body := by omega
  obtain ⟨rest, hstore⟩ : ∃ rest, _ := store_storeAll
    (by rw [hlen, hbuf]; omega : (body.take (getLen body).toNat).length < buf.length)
  rw [hcast] at hstore
  refine ⟨body.take (getLen body).toNat ++ 0 :: rest, ?_, ofBuffer_append_nul _ _⟩
  rw [← hstore, getCb]
  congr 1
  funext buf'
  by_cases hzero : getLen body = 0
  · rw [hzero]
    rfl
  · rw [evbufferPullup_pos (by omega) hle]
    dsimp only
    rw [List.take_take, Nat.min_self]

theorem getCopies_iff (body : List Byte) :
    GetCopies body ↔ 0 ≤ getLen body ∧ Fits 1024 (getLen body) body := by
  have hsome : ∃ buf : List Byte, buf.length = 1024 :=
    ⟨List.replicate 1024 0, List.length_replicate⟩
  have hle := getLen_le body
  by_cases hin : 0 ≤ getLen body ∧ getLen body < 1024
  · obtain ⟨hpos, hfits⟩ := hin
    have hstring := ofBuffer_take_iff (by omega : (getLen body).toNat < 1024)
      (by omega : (getLen body).toNat ≤ body.length)
    rw [Int.toNat_of_nonneg hpos] at hstring
    rw [and_iff_right hpos, ← hstring]
    constructor
    · intro hall
      obtain ⟨buf, hbuf⟩ := hsome
      obtain ⟨b, hcopy, hb⟩ := getCb_fits hbuf hpos hfits
      obtain ⟨b', hcopied, hwhole⟩ := hall buf hbuf
      rw [hcopy] at hcopied
      cases hcopied
      exact hb.symm.trans hwhole
    · intro hwhole buf hbuf
      obtain ⟨b, hcopy, hb⟩ := getCb_fits hbuf hpos hfits
      exact ⟨b, hcopy, hb.trans hwhole⟩
  · refine iff_of_false ?_ ?_
    · intro hall
      obtain ⟨buf, hbuf⟩ := hsome
      obtain ⟨b, hcopy, _⟩ := hall buf hbuf
      rw [getCb, store_eq_none (by omega)] at hcopy
      cases hcopy
    · intro h
      exact hin ⟨h.1, h.2.1⟩

/-! ## Both -/

/--
**Which bodies the two buffers take.**

Those that are shorter than the buffer. The length of a very long body may be taken
for something else: then nothing is copied where it is not positive, and otherwise the
string is right if it has ended by then.
-/
theorem bodyBuffers_iff (req : EvhttpRequest) (body : List Byte) :
    (LoginCopies req ↔ dataLen req ≤ 0 ∨ Fits POST_BUF_MAX (dataLen req).toInt req.body) ∧
    (GetCopies body ↔ 0 ≤ getLen body ∧ Fits 1024 (getLen body) body) :=
  ⟨loginCopies_iff req, getCopies_iff body⟩

/-- A body as long as the buffer is one byte too long, in both. -/
theorem bodyBuffers_overrun :
    (¬LoginCopies ⟨.POST, CString.lit "/login", CString.lit "/login",
      some (CString.lit "localhost"), List.replicate 4096 1⟩) ∧
      ¬GetCopies (List.replicate 1024 1) := by
  constructor
  · rw [loginCopies_iff, dataLen, List.length_replicate]
    rintro (h | ⟨h, _⟩)
    · exact absurd h (by decide +kernel)
    · exact absurd h (by decide +kernel)
  · rw [getCopies_iff, getLen, List.length_replicate]
    rintro ⟨_, h, _⟩
    exact absurd h (by decide +kernel)

end NanomsgDemo.Http

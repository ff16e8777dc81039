import NanomsgDemo.Lib.Ledger
import NanomsgDemo.Net.NanomsgSocket

/-!
# The descriptor of a socket

`NanomsgSocket` keeps the descriptor of its nanomsg socket in `_fd`. `bind`, `connect`
and `setsockopt` close it when they fail, `close` closes it, and so does the destructor;
none of them writes to `_fd`, and none asks if there is anything to close.

The table of sockets belongs to the process: a descriptor that has been closed is given
to whoever asks next. What a call does to a descriptor that is not in use is fail. `recv`
and `send` are here as the one `nn_` call that they make; whatever `onRecv` does with the
socket comes after it, like a call of its own.
-/

namespace NanomsgDemo.Net

open Runs Accounts

/-- A descriptor of a nanomsg socket. -/
structure Descriptor where
  fd : Int32
  nonneg : 0 ≤ fd
  deriving DecidableEq

/-- What `nn_socket` returns when the descriptors of the table are in use: `none` is -1. -/
structure NnSocket where
  result : List Descriptor → Option Descriptor
  fresh : ∀ table d, result table = some d → d ∉ table

/-- The functions of nanomsg that are called with a descriptor, except for `nn_close`. -/
inductive NnFunction where
  | nn_bind
  | nn_connect
  | nn_setsockopt
  | nn_getsockopt
  | nn_shutdown
  | nn_recv
  | nn_send
  deriving DecidableEq, Repr

/-- A call of nanomsg; `r` is what `nn_close` returns for a socket. -/
inductive NnCall where
  | on (f : NnFunction) (fd : Int32)
  | nn_close (fd : Int32) (r : Int32)
  deriving DecidableEq, Repr

/-! ## What the methods call -/

namespace NanomsgSocket

/-- `NanomsgSocket::create`, when `nn_socket` returns the descriptor or fails. -/
def create (s : NanomsgSocket) (d : Option Descriptor) : NanomsgSocket × Int32 :=
  match d with
  | some d => ({ s with fd := d.fd }, d.fd)
  | none => ({ s with fd := -1 }, -1)

/-- The common part of `bind`, `connect` and `setsockopt`: `r` is the result of the function. -/
def orClose (s : NanomsgSocket) (f : NnFunction) (r c : Int32) : List NnCall × Int32 :=
  if r < 0 then ([.on f s.fd, .nn_close s.fd c], -1) else ([.on f s.fd], 0)

/-- `NanomsgSocket::bind`. -/
def bind (s : NanomsgSocket) (r c : Int32) : List NnCall × Int32 := s.orClose .nn_bind r c

/-- `NanomsgSocket::connect`. -/
def connect (s : NanomsgSocket) (r c : Int32) : List NnCall × Int32 := s.orClose .nn_connect r c

/-- `NanomsgSocket::setsockopt`. -/
def setsockopt (s : NanomsgSocket) (r c : Int32) : List NnCall × Int32 :=
  s.orClose .nn_setsockopt r c

/-- `NanomsgSocket::getsockopt`. -/
def getsockopt (s : NanomsgSocket) (r : Int32) : List NnCall × Int32 :=
  ([.on .nn_getsockopt s.fd], r)

/-- `NanomsgSocket::shutdown`. -/
def shutdown (s : NanomsgSocket) (r : Int32) : List NnCall × Int32 :=
  ([.on .nn_shutdown s.fd], r)

/-- `NanomsgSocket::close`. -/
def close (s : NanomsgSocket) (c : Int32) : List NnCall × Int32 := ([.nn_close s.fd c], c)

/-- `NanomsgSocket::~NanomsgSocket`. -/
def destruct (s : NanomsgSocket) (c : Int32) : List NnCall := (s.close c).1

/-- The call that `recv` makes before it hands the message to `parse`. -/
def recvCalls (s : NanomsgSocket) : List NnCall := [.on .nn_recv s.fd]

/-- The call that `send` makes with the packet. -/
def sendCalls (s : NanomsgSocket) : List NnCall := [.on .nn_send s.fd]

end NanomsgSocket

/-! ## The process -/

/-- The sockets of the process, and what one `NanomsgSocket` has done to them. -/
structure Nn where
  /-- The descriptors in use. -/
  table : List Descriptor
  /-- Those that `create` has got and that have not been passed to `nn_close`. -/
  owned : List Descriptor
  /-- The descriptors that `create` has got, and those passed to `nn_close`. -/
  account : Ledger Int32

namespace Nn

/-- The object owns a socket with the descriptor. -/
def Owns (n : Nn) (fd : Int32) : Prop := ∃ d ∈ n.owned, d.fd = fd

instance (n : Nn) (fd : Int32) : Decidable (n.Owns fd) := by unfold Owns; infer_instance

/-- What a function returns that would return `r` if the descriptor is in use. -/
def answer (n : Nn) (fd r : Int32) : Int32 := if ∃ d ∈ n.table, d.fd = fd then r else -1

/-- `create` has got a descriptor. -/
def got (n : Nn) (d : Descriptor) : Nn :=
  ⟨d :: n.table, d :: n.owned, n.account.record [d.fd] []⟩

/-- A call: `nn_close` gives the descriptor back, unless it has been interrupted. -/
def call (n : Nn) : NnCall → Nn
  | .on _ _ => n
  | .nn_close fd c =>
      { table := if c < 0 then n.table else n.table.filter (·.fd ≠ fd)
        owned := n.owned.filter (·.fd ≠ fd)
        account := n.account.record [] [fd] }

/--
What a call may be made on: no descriptor that has been closed, and for `nn_close` only
one that the object owns.
-/
def Proper (n : Nn) : NnCall → Prop
  | .on _ fd => fd = -1 ∨ n.Owns fd
  | .nn_close fd _ => n.Owns fd

instance (n : Nn) (c : NnCall) : Decidable (n.Proper c) := by
  unfold Proper
  split <;> infer_instance

end Nn

/-- An object among the sockets of its process. -/
structure Descriptors where
  sock : NanomsgSocket
  nn : Nn

namespace Descriptors

/-- A call of one of the methods, with what nanomsg answers, or something done by others. -/
inductive Act where
  | create (nn : NnSocket)
  | bind (r c : Int32)
  | connect (r c : Int32)
  | setsockopt (r c : Int32)
  | getsockopt (r : Int32)
  | shutdown (r : Int32)
  | recv
  | send
  | close (c : Int32)
  | destruct (c : Int32)
  | otherSocket (nn : NnSocket)
  | otherClose (d : Descriptor)

/-- A new object, while others have sockets. -/
def start (table : List Descriptor) : Descriptors := ⟨.init, table, [], .empty⟩

/-- The calls of nanomsg that a method makes, after `nn_socket`. -/
def calls (s : Descriptors) : Act → List NnCall
  | .bind r c => (s.sock.bind (s.nn.answer s.sock.fd r) c).1
  | .connect r c => (s.sock.connect (s.nn.answer s.sock.fd r) c).1
  | .setsockopt r c => (s.sock.setsockopt (s.nn.answer s.sock.fd r) c).1
  | .getsockopt r => (s.sock.getsockopt (s.nn.answer s.sock.fd r)).1
  | .shutdown r => (s.sock.shutdown (s.nn.answer s.sock.fd r)).1
  | .recv => s.sock.recvCalls
  | .send => s.sock.sendCalls
  | .close c => (s.sock.close c).1
  | .destruct c => s.sock.destruct c
  | .create _ | .otherSocket _ | .otherClose _ => []

def step (s : Descriptors) (act : Act) : Descriptors :=
  match act with
  | .create nn =>
      let d := nn.result s.nn.table
      ⟨(s.sock.create d).1, d.elim s.nn s.nn.got⟩
  | .otherSocket nn =>
      { s with nn := { s.nn with table := (nn.result s.nn.table).toList ++ s.nn.table } }
  | .otherClose d =>
      if d ∈ s.nn.owned then s else { s with nn := { s.nn with table := s.nn.table.erase d } }
  | act => { s with nn := (s.calls act).foldl Nn.call s.nn }

/-- A method makes no call that it may not make. -/
def Right (s : Descriptors) (act : Act) : Prop := AllSteps Nn.call Nn.Proper s.nn (s.calls act)

/--
`create` finds nothing that is open, what may close finds something that is, and what
only uses the descriptor does not find a closed one.
-/
def Fit (s : Descriptors) : Act → Prop
  | .create _ => ¬ s.nn.Owns s.sock.fd
  | .bind .. | .connect .. | .setsockopt .. | .close _ | .destruct _ => s.nn.Owns s.sock.fd
  | .getsockopt _ | .shutdown _ | .recv | .send => s.sock.fd = -1 ∨ s.nn.Owns s.sock.fd
  | .otherSocket _ | .otherClose _ => True

instance (s : Descriptors) (act : Act) : Decidable (s.Fit act) := by
  unfold Fit
  split <;> infer_instance

/-- The object owns nothing but what `_fd` names. -/
def Known (s : Descriptors) : Prop := ∀ d ∈ s.nn.owned, d.fd = s.sock.fd

/-- What the object owns is in use. -/
structure Inv (s : Descriptors) : Prop where
  nodup : s.nn.owned.Nodup
  used : ∀ d ∈ s.nn.owned, d ∈ s.nn.table

variable {s : Descriptors}

theorem inv_start (table : List Descriptor) : (start table).Inv :=
  ⟨List.nodup_nil, fun _ hd => absurd hd List.not_mem_nil⟩

theorem known_start (table : List Descriptor) : (start table).Known :=
  fun _ hd => absurd hd List.not_mem_nil

/-! ## What the calls of a method come to -/

theorem ext_fd {d d' : Descriptor} (h : d.fd = d'.fd) : d = d' := by
  cases d
  cases d'
  cases h
  rfl

/-- There is no descriptor `-1`, so whatever is called on it fails. -/
theorem answer_neg (n : Nn) (r : Int32) : n.answer (-1) r = -1 := by
  unfold Nn.answer
  refine if_neg ?_
  rintro ⟨d, _, hd⟩
  have := d.nonneg
  rw [hd] at this
  exact absurd this (by decide)

/-- `bind`, `connect` and `setsockopt` may be called on an open descriptor, and on nothing else. -/
theorem orClose_iff (n : Nn) (s : NanomsgSocket) (f : NnFunction) (r c : Int32) :
    AllSteps Nn.call Nn.Proper n (s.orClose f (n.answer s.fd r) c).1 ↔ n.Owns s.fd := by
  unfold NanomsgSocket.orClose
  split
  · -- the call has failed, and its descriptor is closed
    show (s.fd = -1 ∨ n.Owns s.fd) ∧ n.Owns s.fd ∧ True ↔ n.Owns s.fd
    tauto
  · rename_i hr
    show (s.fd = -1 ∨ n.Owns s.fd) ∧ True ↔ n.Owns s.fd
    have hne : s.fd ≠ -1 := by
      intro h
      rw [h, answer_neg] at hr
      exact hr (by decide)
    tauto

/-- Apart from `create`, a method is called where it may be exactly if its calls are proper. -/
theorem right_iff (s : Descriptors) (act : Act) (hact : ∀ nn, act ≠ .create nn) :
    s.Right act ↔ s.Fit act := by
  unfold Right
  cases act with
  | create nn => exact absurd rfl (hact nn)
  | bind r c => exact orClose_iff s.nn s.sock .nn_bind r c
  | connect r c => exact orClose_iff s.nn s.sock .nn_connect r c
  | setsockopt r c => exact orClose_iff s.nn s.sock .nn_setsockopt r c
  | getsockopt r => exact iff_of_eq (and_true _)
  | shutdown r => exact iff_of_eq (and_true _)
  | recv => exact iff_of_eq (and_true _)
  | send => exact iff_of_eq (and_true _)
  | close c => exact iff_of_eq (and_true _)
  | destruct c => exact iff_of_eq (and_true _)
  | otherSocket nn => exact Iff.rfl
  | otherClose d => exact Iff.rfl

/-- The calls of a method either close the descriptor or do not touch the sockets. -/
theorem foldl_orClose (n : Nn) (s : NanomsgSocket) (f : NnFunction) (r c : Int32) :
    (s.orClose f r c).1.foldl Nn.call n = n ∨
      (s.orClose f r c).1.foldl Nn.call n = n.call (.nn_close s.fd c) := by
  unfold NanomsgSocket.orClose
  split
  · exact Or.inr rfl
  · exact Or.inl rfl

/--
**What a step does**, apart from `create`: others change the table, or `_fd` is closed,
which fits if it is owned.
-/
theorem step_cases (s : Descriptors) (act : Act) (hact : ∀ nn, act ≠ .create nn) :
    (∃ table, s.step act = { s with nn := { s.nn with table } } ∧
        ∀ d ∈ s.nn.owned, d ∈ s.nn.table → d ∈ table) ∨
      ∃ c, s.step act = { s with nn := s.nn.call (.nn_close s.sock.fd c) } ∧
        (s.Fit act → s.nn.Owns s.sock.fd) := by
  have hsame : (∃ table, s = { s with nn := { s.nn with table } } ∧
      ∀ d ∈ s.nn.owned, d ∈ s.nn.table → d ∈ table) := ⟨s.nn.table, rfl, fun _ _ h => h⟩
  have horClose : ∀ f r c,
      (s.step act = { s with nn := (s.sock.orClose f r c).1.foldl Nn.call s.nn }) →
      (s.Fit act → s.nn.Owns s.sock.fd) →
      (∃ table, s.step act = { s with nn := { s.nn with table } } ∧
        ∀ d ∈ s.nn.owned, d ∈ s.nn.table → d ∈ table) ∨
      ∃ c, s.step act = { s with nn := s.nn.call (.nn_close s.sock.fd c) } ∧
        (s.Fit act → s.nn.Owns s.sock.fd) := by
    intro f r c h hfit
    rw [h]
    rcases foldl_orClose s.nn s.sock f r c with hf | hf
    · rw [hf]
      exact Or.inl hsame
    · rw [hf]
      exact Or.inr ⟨c, rfl, hfit⟩
  cases act with
  | create nn => exact absurd rfl (hact nn)
  | bind r c => exact horClose .nn_bind _ c rfl id
  | connect r c => exact horClose .nn_connect _ c rfl id
  | setsockopt r c => exact horClose .nn_setsockopt _ c rfl id
  | getsockopt r => exact Or.inl hsame
  | shutdown r => exact Or.inl hsame
  | recv => exact Or.inl hsame
  | send => exact Or.inl hsame
  | close c => exact Or.inr ⟨c, rfl, id⟩
  | destruct c => exact Or.inr ⟨c, rfl, id⟩
  | otherSocket nn =>
      exact Or.inl ⟨_, rfl, fun d _ h => List.mem_append_right _ h⟩
  | otherClose d =>
      by_cases hd : d ∈ s.nn.owned
      · have hstep : s.step (.otherClose d) = s := if_pos hd
        rw [hstep]
        exact Or.inl hsame
      · have hstep : s.step (.otherClose d) =
            { s with nn := { s.nn with table := s.nn.table.erase d } } := if_neg hd
        refine Or.inl ⟨_, hstep, fun d' hd' h => ?_⟩
        have hne : d' ≠ d := fun hdd => hd (hdd ▸ hd')
        exact (List.mem_erase_of_ne hne).mpr h

/-! ## The invariant -/

theorem inv_create (hi : s.Inv) (nn : NnSocket) : (s.step (.create nn)).Inv := by
  cases hd : nn.result s.nn.table with
  | none =>
      simp only [step, hd]
      exact ⟨hi.nodup, hi.used⟩
  | some d =>
      simp only [step, hd]
      have hnew : d ∉ s.nn.owned := fun h => nn.fresh _ _ hd (hi.used d h)
      refine ⟨List.nodup_cons.mpr ⟨hnew, hi.nodup⟩, fun d' h => ?_⟩
      rcases List.mem_cons.mp h with h | h
      · exact h ▸ List.mem_cons_self
      · exact List.mem_cons_of_mem _ (hi.used d' h)

theorem inv_step (s : Descriptors) (act : Act) (hi : s.Inv) : (s.step act).Inv := by
  by_cases hact : ∃ nn, act = .create nn
  · obtain ⟨nn, rfl⟩ := hact
    exact inv_create hi nn
  · obtain ⟨table, hstep, hkept⟩ | ⟨c, hstep, _⟩ :=
      step_cases s act fun nn h => hact ⟨nn, h⟩
    · rw [hstep]
      exact ⟨hi.nodup, fun d hd => hkept d hd (hi.used d hd)⟩
    · rw [hstep]
      refine ⟨hi.nodup.filter _, fun d hd => ?_⟩
      have hd : d ∈ s.nn.owned.filter (·.fd ≠ s.sock.fd) := hd
      obtain ⟨hmem, hne⟩ := List.mem_filter.mp hd
      show d ∈ if c < 0 then s.nn.table else s.nn.table.filter (·.fd ≠ s.sock.fd)
      split
      · exact hi.used d hmem
      · exact List.mem_filter.mpr ⟨hi.used d hmem, hne⟩

/-! ## Nothing is lost -/

/-- After `create`, the object owns nothing else exactly if it owned nothing before. -/
theorem known_create_iff (hi : s.Inv) (nn : NnSocket) :
    (s.step (.create nn)).Known ↔ s.nn.owned = [] := by
  cases hd : nn.result s.nn.table with
  | none =>
      simp only [step, hd]
      refine ⟨fun h => ?_, fun h d hdm => ?_⟩
      · refine List.eq_nil_iff_forall_not_mem.mpr fun d hdm => ?_
        have hneg : d.fd = -1 := h d hdm
        have := d.nonneg
        rw [hneg] at this
        exact absurd this (by decide)
      · have hdm : d ∈ s.nn.owned := hdm
        rw [h] at hdm
        exact absurd hdm List.not_mem_nil
  | some d =>
      simp only [step, hd]
      refine ⟨fun h => ?_, fun h d' hdm => ?_⟩
      · refine List.eq_nil_iff_forall_not_mem.mpr fun d' hdm => ?_
        -- it would have the new descriptor, which is not in use
        have hfd : d'.fd = d.fd := h d' (List.mem_cons_of_mem _ hdm)
        have hused := hi.used d' hdm
        rw [ext_fd hfd] at hused
        exact nn.fresh _ _ hd hused
      · have hdm : d' ∈ d :: s.nn.owned := hdm
        rw [h] at hdm
        rw [List.mem_singleton.mp hdm]
        rfl

theorem known_back (s : Descriptors) (act : Act) (hi : s.Inv) (h : (s.step act).Known) :
    s.Known := by
  by_cases hact : ∃ nn, act = .create nn
  · obtain ⟨nn, rfl⟩ := hact
    have hnil := (known_create_iff hi nn).mp h
    intro d hd
    rw [hnil] at hd
    exact absurd hd List.not_mem_nil
  · obtain ⟨table, hstep, _⟩ | ⟨c, hstep, _⟩ := step_cases s act fun nn h => hact ⟨nn, h⟩
    · rw [hstep] at h
      exact h
    · rw [hstep] at h
      intro d hd
      by_contra hne
      exact hne (h d (List.mem_filter.mpr ⟨hd, by simpa using hne⟩))

theorem known_step (act : Act) (hact : ∀ nn, act ≠ .create nn) (hk : s.Known) :
    (s.step act).Known := by
  obtain ⟨table, hstep, _⟩ | ⟨c, hstep, _⟩ := step_cases s act hact
  · rw [hstep]
    exact hk
  · rw [hstep]
    intro d hd
    exact hk d (List.mem_filter.mp hd).1

/-- **One step.** -/
theorem right_and_known_iff (s : Descriptors) (act : Act) (hi : s.Inv) (hk : s.Known) :
    s.Right act ∧ (s.step act).Known ↔ s.Fit act := by
  by_cases hact : ∃ nn, act = .create nn
  · obtain ⟨nn, rfl⟩ := hact
    have hright : s.Right (.create nn) := trivial
    refine (and_iff_right hright).trans ((known_create_iff hi nn).trans ?_)
    show s.nn.owned = [] ↔ ¬ s.nn.Owns s.sock.fd
    refine ⟨fun h => ?_, fun h => List.eq_nil_iff_forall_not_mem.mpr fun d hd => ?_⟩
    · rintro ⟨d, hd, _⟩
      rw [h] at hd
      exact absurd hd List.not_mem_nil
    · exact h ⟨d, hd, hk d hd⟩
  · have hact : ∀ nn, act ≠ .create nn := fun nn h => hact ⟨nn, h⟩
    rw [and_iff_left (known_step act hact hk)]
    exact right_iff s act hact

/-! ## The account -/

/-- What has been got and not been passed to `nn_close` is owned. -/
def Accounts (s : Descriptors) : Prop := Reconciled s.nn.account (s.nn.owned.map (·.fd))

theorem perm_filter (hi : s.Inv) {fd : Int32} (h : s.nn.Owns fd) :
    (s.nn.owned.map (·.fd)).Perm (fd :: (s.nn.owned.filter (·.fd ≠ fd)).map (·.fd)) := by
  obtain ⟨d, hd, rfl⟩ := h
  have hrest : s.nn.owned.filter (·.fd ≠ d.fd) = s.nn.owned.erase d := by
    rw [hi.nodup.erase_eq_filter]
    refine List.filter_congr fun d' _ => ?_
    by_cases hdd : d' = d
    · simp [hdd]
    · have hne : d'.fd ≠ d.fd := fun h => hdd (ext_fd h)
      simp [hdd, hne]
  rw [hrest]
  exact (List.perm_cons_erase hd).map _

/-- Proper steps keep the account. -/
theorem accounts_step (act : Act) (hi : s.Inv) (ha : s.Accounts) (hr : s.Right act) :
    (s.step act).Accounts := by
  by_cases hact : ∃ nn, act = .create nn
  · obtain ⟨nn, rfl⟩ := hact
    cases hd : nn.result s.nn.table with
    | none =>
        simp only [step, hd]
        exact ha
    | some d =>
        simp only [step, hd]
        show Missing _ _ ([] ++ [])
        refine ha.record ?_
        simp only [List.append_nil, List.nil_append]
        exact List.perm_append_singleton ..
  · have hact : ∀ nn, act ≠ .create nn := fun nn h => hact ⟨nn, h⟩
    obtain ⟨table, hstep, _⟩ | ⟨c, hstep, hfit⟩ := step_cases s act hact
    · rw [hstep]
      exact ha
    · rw [hstep]
      have howns := hfit ((right_iff s act hact).mp hr)
      show Missing _ _ ([] ++ [])
      refine ha.record ?_
      simp only [List.append_nil]
      exact perm_filter hi howns

/-- The destructor closes what is known. -/
theorem owned_destruct (hk : s.Known) (c : Int32) : (s.step (.destruct c)).nn.owned = [] := by
  refine List.filter_eq_nil_iff.mpr fun d hd => ?_
  simp [hk d hd]

/-- The calls on an object from its constructor to its destructor. -/
def lifetime (acts : List Act) (c : Int32) : List Act := acts ++ [.destruct c]

/--
No call is made on a closed descriptor, `nn_close` is called on open descriptors of the
object only, and what `create` has got is what has been passed to `nn_close`.
-/
structure ClosedOnce (table : List Descriptor) (acts : List Act) : Prop where
  right : AllSteps step Right (start table) acts
  once : (acts.foldl step (start table)).nn.account.made.Perm
    (acts.foldl step (start table)).nn.account.freed

/--
**Each descriptor is closed once exactly as long as `_fd` says what is open.**

For every run of calls that ends with the destructor, whatever nanomsg answers and
whatever other sockets come and go: the descriptors are closed as they should be if and
only if `create` is never called while a socket is open, and `bind`, `connect`,
`setsockopt`, `close` and the destructor always are while one is.
-/
theorem closedOnce_iff (table : List Descriptor) (acts : List Act) (c : Int32) :
    ClosedOnce table (lifetime acts c) ↔ AllSteps step Fit (start table) (lifetime acts c) := by
  have hiff := allSteps_and_final_iff (R := Right) (P := Known) (inv_start table)
    (known_start table) inv_step known_back right_and_known_iff (lifetime acts c)
  have hrun : AllSteps step Right (start table) (lifetime acts c) →
      ((lifetime acts c).foldl step (start table)).Accounts := by
    intro hr
    have hinit : (start table).Accounts := reconciled_empty
    exact (invariant_of_allSteps (I := fun s => s.Inv ∧ s.Accounts) ⟨inv_start table, hinit⟩
      (fun s act h hright => ⟨inv_step s act h.1, accounts_step act h.1 h.2 hright⟩) hr).2
  refine ⟨fun h => hiff.mp ⟨h.right, ?_⟩, fun hfit => ?_⟩
  · -- as much has been closed as has been got, so nothing is owned
    have hlen := Missing.length (hrun h.right)
    have hsame := h.once.length_eq
    simp only [List.length_map, List.length_nil] at hlen
    intro d hd
    have := List.length_pos_of_mem hd
    omega
  · obtain ⟨hr, hk⟩ := hiff.mpr hfit
    refine ⟨hr, ?_⟩
    have hacc := hrun hr
    have hinv : (acts.foldl step (start table)).Inv := invariant (inv_start table) inv_step acts
    have hend : (lifetime acts c).foldl step (start table) =
        (acts.foldl step (start table)).step (.destruct c) := List.foldl_append ..
    rw [hend] at hk hacc ⊢
    have hnone := owned_destruct (known_back _ _ hinv hk) c
    unfold Accounts at hacc
    rw [hnone] at hacc
    unfold Reconciled Missing at hacc
    simpa using hacc

/-- `nn_socket` that gives the descriptor to whoever asks. -/
def giving (d : Descriptor) : NnSocket where
  result table := if d ∈ table then none else some d
  fresh := by
    intro table d' h
    split at h
    · exact absurd h (by simp)
    · rename_i hd
      exact Option.some.inj h ▸ hd

/-- A `bind` fails, another socket gets the descriptor, and the destructor closes that one. -/
theorem not_closedOnce_bind :
    ¬ ClosedOnce [] (lifetime [.create (giving ⟨0, by decide⟩), .bind (-1) 0,
      .otherSocket (giving ⟨0, by decide⟩)] 0) := by
  intro h
  have hlen := h.once.length_eq
  exact absurd hlen (by decide)

end Descriptors

end NanomsgDemo.Net

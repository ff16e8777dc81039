import NanomsgDemo.Lib.Runs
import NanomsgDemo.Net.SocketSession

/-!
# How the end of a connection is reported

libevent reports the end of a connection as an event whose flags name both the
direction that failed and the reason. `__onEvent` looks at the direction first,
and whatever the event was, it then forgets the bufferevent.

`Watching` is a session with the events and read callbacks that libevent delivers
to it, and the log of what its handler was told. Three things go wrong, and
nothing else does: an end of file or a timeout is reported as an error, the other
direction can still fail after the first has, and a read callback that comes after
that finds the bufferevent gone.
-/

namespace NanomsgDemo.Net

open Runs

/-- Why a direction of a connection failed. -/
inductive EndReason where
  | eof
  | timeout
  | error
  deriving DecidableEq, Repr

/-- The events that libevent delivers to a session. -/
inductive BevEvent where
  /-- From `bufferevent_readcb` if `reading`, else from `bufferevent_writecb`. -/
  | failed (reading : Bool) (reason : EndReason)
  /-- A connect that failed. -/
  | refused
  | connected
  deriving DecidableEq, Repr

/-- The flag of a reason. -/
def EndReason.flag : EndReason → BitVec 16
  | .eof => BEV_EVENT_EOF
  | .timeout => BEV_EVENT_TIMEOUT
  | .error => BEV_EVENT_ERROR

/-- The flags an event comes with. -/
def BevEvent.flags : BevEvent → BitVec 16
  | .failed reading reason =>
      (if reading then BEV_EVENT_READING else BEV_EVENT_WRITING) ||| reason.flag
  | .refused => BEV_EVENT_ERROR
  | .connected => BEV_EVENT_CONNECTED

/-- The method that is there for a reason. -/
def EndReason.notice : EndReason → HandlerCall
  | .eof => .onSocketDisConnect
  | .timeout => .onSocketTimeout
  | .error => .onSocketError

/-- The method an event is to be reported through. -/
def BevEvent.notice : BevEvent → HandlerCall
  | .failed _ reason => reason.notice
  | .refused => .onSocketError
  | .connected => .onSocketConnected

/-- The methods that report the end of a connection. -/
def HandlerCall.IsEnd : HandlerCall → Prop
  | .onSocketDisConnect | .onSocketTimeout | .onSocketError => True
  | .onSocketConnected | .onSocketParse _ => False

/-- After an end nothing more is reported: no other end, and no message. -/
def EndsOnce (log : List HandlerCall) : Prop :=
  ∀ pre h post, log = pre ++ h :: post → h.IsEnd → ∀ g ∈ post, ¬ g.IsEnd ∧ ¬ g.IsParse

/-- A session, the core it reads into, and what its handler has been told. -/
structure Watching (κ : Type) where
  session : SocketSession κ
  core : SocketCore
  log : List HandlerCall
  /-- An exception or an access through a null pointer has ended the program. -/
  halted : Bool

/-- What libevent does with a session. -/
inductive Watching.Act (κ : Type) where
  | event (e : BevEvent)
  /-- A read callback; `answer` is what the reply callbacks return in it. -/
  | read (input : List Byte) (answer : κ → List Byte → Bool)

namespace Watching

variable {κ : Type}

def step (np : NetPackage) (s : Watching κ) (a : Act κ) : Watching κ :=
  if s.halted then s
  else
    match a with
    | .event e =>
        let (session, calls, outcome) := s.session.onEvent e.flags
        { s with session, log := s.log ++ calls, halted := outcome != .returned 0 }
    | .read input answer =>
        let r := s.session.onRead np answer s.core input
        { s with
          core := r.core
          log := s.log ++ handlerCalls r.calls
          halted := r.outcome != .returned 0 }

/-- An event is reported through its method; a read callback has a bufferevent to read from. -/
def Reports (s : Watching κ) (a : Act κ) : Prop :=
  s.halted = false →
    match a with
    | .event e => (s.session.onEvent e.flags).2.1 = [e.notice]
    | .read _ _ => s.session.bev ≠ none

/--
No end of file and no timeout; and once the bufferevent has been forgotten, no
more errors and no read callback.
-/
def Mild (s : Watching κ) (a : Act κ) : Prop :=
  s.halted = false →
    match a with
    | .event .connected => True
    | .event .refused | .event (.failed _ .error) => s.session.bev ≠ none
    | .event (.failed _ .eof) | .event (.failed _ .timeout) => False
    | .read _ _ => s.session.bev ≠ none

/-- The bufferevent is there until an end is reported, and gone from then on. -/
structure Inv (s : Watching κ) : Prop where
  handled : s.session.handler.isSome = true
  ended : s.halted = false → (s.session.bev = none ↔ ∃ h ∈ s.log, h.IsEnd)

end Watching

/-! ## Logs that end once -/

theorem EndsOnce.of_append {l m : List HandlerCall} (h : EndsOnce (l ++ m)) : EndsOnce l :=
  fun pre g post hq hend x hx =>
    h pre g (post ++ m) (by rw [hq, List.append_assoc, List.cons_append]) hend x
      (List.mem_append_left _ hx)

/-- As long as no end has been reported, anything that reports at most one may follow. -/
theorem EndsOnce.append {l m : List HandlerCall} (hl : ∀ h ∈ l, ¬ h.IsEnd) (hm : EndsOnce m) :
    EndsOnce (l ++ m) := by
  intro pre h post hq hend x hx
  rcases List.append_eq_append_iff.mp hq with ⟨t, hpre, hm'⟩ | ⟨t, hl', hcons⟩
  · exact hm t h post hm' hend x hx
  · -- the end would be in `l`, unless `l` stops right before it
    cases t with
    | nil =>
        rw [List.nil_append] at hcons
        exact hm [] h post hcons.symm hend x hx
    | cons g t =>
        obtain ⟨rfl, _⟩ := List.cons.inj hcons
        exact absurd hend (hl h (by rw [hl']; simp))

theorem HandlerCall.IsParse.not_isEnd {h : HandlerCall} (hp : h.IsParse) : ¬ h.IsEnd := by
  cases h with
  | onSocketParse m => exact not_false
  | _ => exact absurd hp not_false

theorem EndsOnce.of_no_end {l : List HandlerCall} (h : ∀ g ∈ l, ¬ g.IsEnd) : EndsOnce l :=
  fun pre g post hq hend => absurd hend (h g (by rw [hq]; simp))

/-- What is neither an end nor a message may follow in any case. -/
theorem EndsOnce.snoc {l : List HandlerCall} {g : HandlerCall} (hl : EndsOnce l) (hg : ¬ g.IsEnd)
    (hp : ¬ g.IsParse) : EndsOnce (l ++ [g]) := by
  intro pre h post hq hend x hx
  rcases List.append_eq_append_iff.mp hq with ⟨t, _, hm⟩ | ⟨t, hl', hcons⟩
  · -- then `h` is `g`
    have hmem : h ∈ [g] := by rw [hm]; simp
    rw [List.mem_singleton.mp hmem] at hend
    exact absurd hend hg
  · cases t with
    | nil =>
        rw [List.nil_append] at hcons
        exact absurd hend (by rw [(List.cons.inj hcons).1]; exact hg)
    | cons y t =>
        obtain ⟨rfl, rfl⟩ := List.cons.inj hcons
        rcases List.mem_append.mp hx with hx | hx
        · exact hl pre h t hl' hend x hx
        · rw [List.mem_singleton.mp hx]
          exact ⟨hg, hp⟩

theorem EndsOnce.singleton (h : HandlerCall) : EndsOnce [h] := by
  intro pre g post hq _ x hx
  cases pre with
  | nil =>
      obtain ⟨_, rfl⟩ := List.cons.inj hq
      exact absurd hx List.not_mem_nil
  | cons y pre =>
      obtain ⟨_, hnil⟩ := List.cons.inj hq
      simp at hnil

theorem not_endsOnce {l : List HandlerCall} {h : HandlerCall} (hl : ∃ g ∈ l, g.IsEnd)
    (hend : h.IsEnd) : ¬ EndsOnce (l ++ [h]) := by
  intro ho
  obtain ⟨g, hg, hgend⟩ := hl
  obtain ⟨pre, post, rfl⟩ := List.append_of_mem hg
  exact (ho pre g (post ++ [h]) (by simp) hgend h (by simp)).1 hend

/-! ## One event -/

/-- **Whatever ends a connection is reported as an error.** The direction comes first. -/
theorem onEvent_eq {κ : Type} {s : SocketSession κ} {h : Nat} (hh : s.handler = some h)
    (e : BevEvent) :
    s.onEvent e.flags =
      if e = .connected then ({ s with connected := true }, [.onSocketConnected], .returned 0)
      else ({ s with connected := false, bev := none }, [.onSocketError], .returned 0) := by
  cases e with
  | connected => exact SocketSession.onEvent_connected hh (by decide)
  | refused => exact SocketSession.onEvent_end hh (by decide)
  | failed reading reason =>
      have hf : hasFlag (BevEvent.failed reading reason).flags BEV_EVENT_CONNECTED = false := by
        cases reading <;> cases reason <;> decide
      have hn : endNotice (BevEvent.failed reading reason).flags = some .onSocketError := by
        cases reading <;> cases reason <;> decide
      rw [SocketSession.onEvent_end hh hf, hn]
      rfl

namespace Watching

variable {κ : Type}

/-! ## One step -/

theorem step_halted {np : NetPackage} {s : Watching κ} {a : Act κ} (hs : s.halted = true) :
    s.step np a = s := by
  unfold step; rw [if_pos hs]

/-- A read callback reports no end, and leaves the session as it was. -/
theorem step_read (np : NetPackage) {s : Watching κ} (input : List Byte)
    (answer : κ → List Byte → Bool) (hs : s.halted = false) :
    (s.step np (.read input answer)).session = s.session ∧
      ∃ calls, (∀ h ∈ calls, ¬ h.IsEnd) ∧
        (s.step np (.read input answer)).log = s.log ++ calls := by
  unfold step
  rw [if_neg (by simp [hs])]
  exact ⟨rfl, _, fun h hm => (onRead_onlyParse _ _ np s.core input h hm).not_isEnd, rfl⟩

/-- An event is logged, and any but a connect takes the bufferevent away. -/
theorem step_event {np : NetPackage} {s : Watching κ} {e : BevEvent} (hs : s.halted = false)
    (hh : s.session.handler.isSome = true) :
    s.step np (.event e) =
      { s with
        session :=
          if e = .connected then { s.session with connected := true }
          else { s.session with connected := false, bev := none }
        log := s.log ++ [if e = .connected then .onSocketConnected else .onSocketError] } := by
  obtain ⟨h, hh⟩ := Option.isSome_iff_exists.mp hh
  unfold step
  rw [if_neg (by simp [hs])]
  simp only [onEvent_eq hh]
  split <;> simp [hs]

theorem inv_step (np : NetPackage) (s : Watching κ) (a : Act κ) (h : Inv s) :
    Inv (s.step np a) := by
  by_cases hs : s.halted = true
  · rwa [step_halted hs]
  have hs : s.halted = false := by simpa using hs
  have hended := h.ended hs
  cases a with
  | read input answer =>
      -- neither the bufferevent nor the ends in the log change
      obtain ⟨hsession, calls, hcalls, hlog⟩ := step_read np input answer hs
      refine ⟨by rw [hsession]; exact h.handled, fun _ => ?_⟩
      rw [hsession, hlog, hended]
      constructor
      · rintro ⟨g, hg, hend⟩
        exact ⟨g, List.mem_append_left _ hg, hend⟩
      · rintro ⟨g, hg, hend⟩
        exact ⟨g, (List.mem_append.mp hg).resolve_right fun hm => hcalls g hm hend, hend⟩
  | event e =>
      rw [step_event hs h.handled]
      by_cases he : e = .connected
      · refine ⟨by simpa [he] using h.handled, fun _ => ?_⟩
        simp [he, hended, HandlerCall.IsEnd]
      · refine ⟨by simpa [he] using h.handled, fun _ => ?_⟩
        simp [he, HandlerCall.IsEnd]

theorem endsOnce_back (np : NetPackage) (s : Watching κ) (a : Act κ)
    (h : EndsOnce (s.step np a).log) : EndsOnce s.log := by
  by_cases hs : s.halted = true
  · rwa [step_halted hs] at h
  · unfold step at h
    rw [if_neg hs] at h
    cases a <;> exact h.of_append

/-- **One step is reported as it should be exactly when it is a mild one.** -/
theorem reports_iff_mild (np : NetPackage) (s : Watching κ) (a : Act κ) (h : Inv s)
    (ho : EndsOnce s.log) : (s.Reports a ∧ EndsOnce (s.step np a).log) ↔ s.Mild a := by
  by_cases hs : s.halted = true
  · rw [step_halted hs]
    simp [Reports, Mild, hs, ho]
  have hs : s.halted = false := by simpa using hs
  have hended := h.ended hs
  have hno : s.session.bev ≠ none → ∀ g ∈ s.log, ¬ g.IsEnd := fun hb g hg hend =>
    hb (hended.mpr ⟨g, hg, hend⟩)
  cases a with
  | read input answer =>
      obtain ⟨_, calls, hcalls, hlog⟩ := step_read np input answer hs
      simp only [Reports, Mild, hs, forall_const]
      refine ⟨fun hr => hr.1, fun hb => ⟨hb, ?_⟩⟩
      rw [hlog]
      exact EndsOnce.append (hno hb) (EndsOnce.of_no_end hcalls)
  | event e =>
      obtain ⟨hd, hhd⟩ := Option.isSome_iff_exists.mp h.handled
      have hcalls : (s.session.onEvent e.flags).2.1 =
          [if e = .connected then .onSocketConnected else .onSocketError] := by
        rw [onEvent_eq hhd]
        split <;> rfl
      have hend : HandlerCall.onSocketError.IsEnd := trivial
      have herror : EndsOnce (s.log ++ [.onSocketError]) ↔ s.session.bev ≠ none :=
        ⟨fun h1 hb => not_endsOnce (hended.mp hb) hend h1,
          fun hb => EndsOnce.append (hno hb) (EndsOnce.singleton _)⟩
      simp only [Reports, hs, forall_const, hcalls, step_event hs h.handled]
      -- what is left is to compare the method called with the method meant
      cases e with
      | connected =>
          simp only [Mild, hs, forall_const, if_true, iff_true]
          exact ⟨rfl, ho.snoc not_false not_false⟩
      | refused => simpa [Mild, hs, BevEvent.notice] using herror
      | failed reading reason =>
          cases reason with
          | eof => simp [Mild, hs, BevEvent.notice, EndReason.notice]
          | timeout => simp [Mild, hs, BevEvent.notice, EndReason.notice]
          | error => simpa [Mild, hs, BevEvent.notice, EndReason.notice] using herror

/--
**The end of a connection is reported as it should be exactly in mild runs.**

For every session with a bufferevent and a handler and every run of events and
read callbacks on it: each event is reported through its own method, no read
callback goes through a null pointer, and after the first report of an end there
is no other one and no message, if and only if no end of file and no timeout
occurs and nothing but connects comes after the first error.
-/
theorem notices_iff_mild (np : NetPackage) (s : SocketSession κ) (core : SocketCore)
    (hb : s.bev.isSome = true) (hh : s.handler.isSome = true) (acts : List (Act κ)) :
    (AllSteps (step np) Reports ⟨s, core, [], false⟩ acts ∧
        EndsOnce (acts.foldl (step np) ⟨s, core, [], false⟩).log) ↔
      AllSteps (step np) Mild ⟨s, core, [], false⟩ acts := by
  have hinit : Inv (⟨s, core, [], false⟩ : Watching κ) := by
    refine ⟨hh, fun _ => ?_⟩
    obtain ⟨b, hb⟩ := Option.isSome_iff_exists.mp hb
    simp [hb]
  exact allSteps_and_final_iff (P := fun t => EndsOnce t.log) hinit
    (EndsOnce.of_no_end fun _ hg => absurd hg List.not_mem_nil) (inv_step np)
    (fun t act _ => endsOnce_back np t act) (reports_iff_mild np) acts

/-- A client session once its connect has been started. -/
def connecting : SocketSession Unit :=
  ((SocketSession.init (some 0)).create 0 .Client (some 0) 0 0).1

/-- A connect, a message, and an error while writing. -/
theorem notices_mild_run :
    let acts : List (Act Unit) := [.event .connected,
      .read [14, 0, 0, 0, 1, 1, 7, 0, 0, 0, 0, 0, 0, 0] fun _ _ => true,
      .event (.failed false .error)]
    EndsOnce
      (acts.foldl (step NetPackage.reference) ⟨connecting, SocketCore.init, [], false⟩).log := by
  intro acts
  exact ((notices_iff_mild NetPackage.reference connecting SocketCore.init rfl rfl acts).mpr
    ⟨fun _ => trivial, fun _ => by decide, fun _ => by decide, trivial⟩).2

/-- The peer closes the connection, and the handler is told of an error. -/
theorem notices_eof_misreported :
    ¬ AllSteps (step NetPackage.reference) Reports ⟨connecting, SocketCore.init, [], false⟩
      [.event .connected, .event (.failed true .eof)] := by
  intro h
  exact absurd (h.2.1 rfl) (by decide)

end Watching

end NanomsgDemo.Net

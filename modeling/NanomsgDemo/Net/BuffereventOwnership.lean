import NanomsgDemo.Lib.Ownership
import NanomsgDemo.Lib.Runs
import NanomsgDemo.Net.SocketSession

/-!
# Who holds on to a bufferevent

`create` makes a bufferevent and registers its session with it. Nothing ever frees
one: a session that ends, by an event, by `destroy` or in its destructor, only
forgets the pointer, and libevent goes on delivering callbacks to whatever is
registered.

So the invariant one would want, that every bufferevent is held by exactly the
session registered with it, survives as long as no session ever ends, and `create`
is called once for each, with a connect that succeeds.
-/

namespace NanomsgDemo.Net

open Ownership Runs

/-- All sessions, by address, and all bufferevents, in the order in which they were made. -/
structure Sessions (κ : Type) where
  sessions : Nat → Option (SocketSession κ)
  bevs : List Bufferevent

namespace Sessions

variable {κ : Type}

/-- What happens to sessions and bufferevents. -/
inductive Act where
  /-- A session is constructed at a free address. -/
  | new (i : Nat) (handler : Ptr)
  /-- `con` is what `bufferevent_socket_connect` returns, for a client. -/
  | create (i : Nat) (c : SessionType) (processor : Ptr) (con : Int32)
  /-- An event callback of bufferevent `b`. -/
  | event (b : Nat) (ev : BitVec 16)
  /-- A read callback of bufferevent `b`. -/
  | read (b : Nat)
  | destroy (i : Nat)
  /-- `delete`: the destructor runs, and the address is free again. -/
  | delete (i : Nat)

/-- No session and no bufferevent. -/
def init : Sessions κ := ⟨fun _ => none, []⟩

/-- The session at an address becomes `t`. -/
def put (w : Sessions κ) (i : Nat) (t : Option (SocketSession κ)) : Sessions κ :=
  { w with sessions := Function.update w.sessions i t }

/--
What is done to sessions that do not exist has no effect here. A read callback
hands bytes on and leaves sessions and bufferevents as they are.
-/
def step (w : Sessions κ) : Act → Sessions κ
  | .new i handler =>
      match w.sessions i with
      | none => w.put i (some (SocketSession.init handler))
      | some _ => w
  | .create i c processor con =>
      match w.sessions i with
      | none => w
      | some s =>
          let (s, made) := s.create i c processor w.bevs.length con
          { w.put i (some s) with bevs := w.bevs ++ made.toList }
  | .event b ev =>
      match w.bevs[b]? with
      | some ⟨some i⟩ =>
          match w.sessions i with
          | none => w
          | some s => w.put i (some (s.afterEvent ev))
      | _ => w
  | .read _ => w
  | .destroy i =>
      match w.sessions i with
      | none => w
      | some s => w.put i (some s.destroy)
  | .delete i => w.put i none

/-- The bufferevent held by the session at an address. -/
def ref (w : Sessions κ) (i : Nat) : Ptr := (w.sessions i).bind SocketSession.bev

/-- Which sessions hold which bufferevents, and which are registered with them. -/
def holding (w : Sessions κ) : Holding Nat := ⟨w.ref, w.bevs.map Bufferevent.userdata⟩

/-- A callback runs on a session that exists and has its bufferevent. -/
def CallbackSafe (w : Sessions κ) : Act → Prop
  | .event b _ | .read b => ∀ i, w.bevs[b]? = some ⟨some i⟩ → w.ref i ≠ none
  | _ => True

/--
`create` makes its bufferevent for a session that has none, and registers it; no
event but a connect; and no end for a session that has a bufferevent.
-/
def Keeps (w : Sessions κ) : Act → Prop
  | .new .. | .read _ => True
  | .create i c _ con => (w.sessions i).isSome = true →
      c = .NONE ∨ w.ref i = none ∧ (c = .Client → 0 ≤ con)
  | .event b ev => ∀ i, w.bevs[b]? = some ⟨some i⟩ → hasFlag ev BEV_EVENT_CONNECTED = true
  | .destroy i | .delete i => w.ref i = none

/-! ## What a step does to the holding -/

/-- The move that a step makes. -/
def move (w : Sessions κ) : Act → Move Nat
  | .new .. | .read _ => .keep
  | .create i c _ con =>
      if (w.sessions i).isSome then
        match c with
        | .NONE => .keep
        | .Server => .make i (some i)
        | .Client => .make i (if 0 ≤ con then some i else none)
      else .keep
  | .event b ev =>
      match w.bevs[b]? with
      | some ⟨some i⟩ => if hasFlag ev BEV_EVENT_CONNECTED then .keep else .drop i
      | _ => .keep
  | .destroy i | .delete i => .drop i

theorem ref_put (w : Sessions κ) (i : Nat) (t : Option (SocketSession κ)) :
    (w.put i t).ref = Function.update w.ref i (t.bind SocketSession.bev) := by
  funext j
  by_cases hji : j = i
  · subst hji; simp [ref, put]
  · simp [ref, put, hji]

theorem holding_put_same {w : Sessions κ} {i : Nat} {t : Option (SocketSession κ)}
    (ht : t.bind SocketSession.bev = w.ref i) : (w.put i t).holding = w.holding := by
  have hsame : (w.put i t).ref = w.ref := by rw [ref_put, ht, Function.update_eq_self]
  unfold holding
  rw [hsame]
  rfl

theorem holding_put_none {w : Sessions κ} {i : Nat} {t : Option (SocketSession κ)}
    (ht : t.bind SocketSession.bev = none) : (w.put i t).holding = w.holding.move (.drop i) := by
  unfold holding
  rw [ref_put, ht]
  rfl

theorem holding_drop_of_none {w : Sessions κ} {i : Nat} (hs : w.sessions i = none) :
    w.holding.move (.drop i) = w.holding := by
  have hi : w.ref i = none := by rw [ref, hs]; rfl
  show { w.holding with ref := Function.update w.ref i none } = w.holding
  rw [← hi, Function.update_eq_self]
  rfl

theorem holding_put_made {w : Sessions κ} {i : Nat} {s : SocketSession κ} {u : Ptr}
    (hs : s.bev = some w.bevs.length) :
    holding { w.put i (some s) with bevs := w.bevs ++ [⟨u⟩] } = w.holding.move (.make i u) := by
  have href : ref { w.put i (some s) with bevs := w.bevs ++ [⟨u⟩] } =
      Function.update w.ref i (some w.bevs.length) := by
    have hput := ref_put w i (some s)
    rw [Option.bind_some, hs] at hput
    exact hput
  unfold holding
  rw [href]
  simp [Holding.move]

/-- **A step moves the holding as `move` says.** -/
theorem step_holding (w : Sessions κ) (a : Act) :
    (w.step a).holding = w.holding.move (w.move a) := by
  cases a with
  | new i handler =>
      cases hs : w.sessions i with
      | none =>
          simp only [step, hs]
          exact holding_put_same (by rw [ref, hs]; rfl)
      | some s => simp only [step, hs]; rfl
  | create i c processor con =>
      cases hs : w.sessions i with
      | none => simp [step, move, hs, Holding.move]
      | some s =>
          simp only [step, move, hs, Option.isSome_some, if_true]
          cases c with
          | NONE =>
              simp only [SocketSession.create, Option.toList_none, List.append_nil]
              exact holding_put_same (by rw [ref, hs]; rfl)
          | Server => exact holding_put_made rfl
          | Client =>
              simp only [SocketSession.create]
              split <;> exact holding_put_made rfl
  | event b ev =>
      unfold step move
      dsimp only
      split
      · rename_i i _
        cases hs : w.sessions i with
        | none =>
            -- the session is gone, and holds nothing that it could drop
            by_cases hev : hasFlag ev BEV_EVENT_CONNECTED = true
            · simp only [hev, if_true]; rfl
            · simp only [hev]; exact (holding_drop_of_none hs).symm
        | some s =>
            have hbev := s.afterEvent_bev ev
            by_cases hev : hasFlag ev BEV_EVENT_CONNECTED = true
            · simp only [hev, if_true] at hbev ⊢
              exact holding_put_same (by rw [Option.bind_some, hbev, ref, hs]; rfl)
            · simp only [hev] at hbev ⊢
              exact holding_put_none (by rw [Option.bind_some, hbev]; rfl)
      · rfl
  | read b => rfl
  | destroy i =>
      cases hs : w.sessions i with
      | none => simp only [step, hs]; exact (holding_drop_of_none hs).symm
      | some s => simp only [step, hs]; exact holding_put_none rfl
  | delete i => exact holding_put_none rfl

/-! ## Ownership -/

theorem registered_eq {w : Sessions κ} {b : Nat} {u : Ptr} :
    w.holding.registered[b]? = some u ↔ w.bevs[b]? = some ⟨u⟩ := by
  simp only [holding, List.getElem?_map, Option.map_eq_some_iff]
  constructor
  · rintro ⟨⟨v⟩, hv, rfl⟩
    exact hv
  · intro h
    exact ⟨_, h, rfl⟩

/-- Where bufferevents have their owners, the steps that `Keeps` admits are the allowed moves. -/
theorem keeps_iff_allows {w : Sessions κ} (ho : w.holding.Owned) (a : Act) :
    w.holding.Allows (w.move a) ↔ w.Keeps a := by
  cases a with
  | new i handler => exact Iff.rfl
  | create i c processor con =>
      unfold Keeps move
      by_cases hs : (w.sessions i).isSome = true
      · simp only [hs, if_true, forall_const]
        cases c with
        | NONE => simp [Holding.Allows]
        | Server => simp [Holding.Allows, holding]
        | Client => by_cases hcon : 0 ≤ con <;> simp [Holding.Allows, holding, hcon]
      · simp [hs, Holding.Allows]
  | event b ev =>
      unfold Keeps move
      dsimp only
      split
      · rename_i i hb
        -- the session holds `b`, so an event that ends it would leave `b` without a holder
        have hi : w.ref i = some b := ho.ref_of_registered (registered_eq.mpr hb)
        by_cases hev : hasFlag ev BEV_EVENT_CONNECTED = true
        · simp [hev, Holding.Allows]
        · simp [hev, Holding.Allows, holding, hi, hb]
      · rename_i hnone
        simp only [Holding.Allows, true_iff]
        exact fun i hi => absurd hi (hnone i)
  | read b => exact Iff.rfl
  | destroy i => exact Iff.rfl
  | delete i => exact Iff.rfl

/-- Every callback finds its session, and in it the bufferevent it came from. -/
theorem callbackSafe_of_owned {w : Sessions κ} (ho : w.holding.Owned) (a : Act) :
    w.CallbackSafe a := by
  have href : ∀ b i, w.bevs[b]? = some (Bufferevent.mk (some i)) → w.ref i ≠ none :=
      fun b i hi => by
    have hb : w.ref i = some b := ho.ref_of_registered (registered_eq.mpr hi)
    simp [hb]
  cases a with
  | event b ev => exact href b
  | read b => exact href b
  | _ => trivial

/--
**Bufferevents keep their owners exactly as long as no session ends.**

For every run over any number of sessions: every bufferevent is, in every state,
held by exactly the session registered with it, and every callback runs on a
session that exists and has its bufferevent, if and only if every step of the run
is one that `Keeps` admits.
-/
theorem allStates_owned_iff (acts : List Act) :
    (AllStates step (fun w : Sessions κ => w.holding.Owned) init acts ∧
        AllSteps step (CallbackSafe (κ := κ)) init acts) ↔
      AllSteps step (Keeps (κ := κ)) init acts := by
  have howned : (init : Sessions κ).holding.Owned := fun _ _ h => by simp [holding, init] at h
  have hiff := allStates_iff_allSteps (P := fun w : Sessions κ => w.holding.Owned)
    (Q := Keeps) (I := fun w : Sessions κ => w.holding.Made)
    (fun _ _ h => by simp [holding, ref, init] at h) howned
    (fun w a hm => by rw [step_holding]; exact hm.move _)
    (fun w a hm ho => by
      rw [step_holding, Holding.owned_move_iff ho hm]; exact keeps_iff_allows ho a) acts
  refine ⟨fun h => hiff.mp h.1, fun h => ⟨hiff.mpr h, ?_⟩⟩
  exact ((hiff.mpr h).and_allSteps h).mono fun _ a ho => callbackSafe_of_owned ho.1 a

/-- An accepted session is disconnected by its peer: nobody holds its bufferevent any more. -/
theorem not_owned_after_eof :
    ¬ AllStates step (fun w : Sessions Unit => w.holding.Owned) init
      [.new 0 (some 0), .create 0 .Server (some 0) 0,
        .event 0 (BEV_EVENT_READING ||| BEV_EVENT_EOF)] := by
  intro h
  have hlast := allStates_iff.mp h _ [] (by rw [List.append_nil])
  obtain ⟨i, hi, href, _⟩ := hlast 0 (some 0) rfl
  obtain rfl := Option.some.inj hi
  exact absurd href (by decide)

end Sessions

end NanomsgDemo.Net

import NanomsgDemo.Net.SocketTimer

/-!
# Multimedia timers

The other timer of `libnet/socket_timer.cpp`. `TimerWin32` has a `TIMER_ITEM` for each timer
id, and the kernel has a timer for each item, with an id of its own and the item as its user
data. So a timer has three names, and the methods pick one each: `kill` passes the item's
`real_tid` to `timeKillEvent`, the destructor its `tid`; `__start` tells by the user id
whether `timeSetEvent` has failed.

Items are objects on a heap as in `TimerLinux`. What `timeSetEvent` has returned for an item
is remembered with it, and also whether `timeKillEvent` has been called with that since.
-/

namespace NanomsgDemo.Net

open Runs Recycling

/-- A timer of the kernel that has been set and not killed, and the item that is its user data. -/
structure MmTimer where
  id : UInt32
  user : Nat
  periodic : Bool
  deriving DecidableEq, Repr

/-- The id `timeSetEvent` returns when there are timers with the ids; `none` if it fails. -/
structure TimeSetEvent where
  result : List UInt32 → Option UInt32
  fresh : ∀ ids id, result ids = some id → id ∉ ids ∧ id ≠ 0

/-- `TIMER_ITEM`, with what `timeSetEvent` has returned for it. -/
structure MmTimerItem where
  tms : Int32 := -1
  tid : Int32 := -1
  realTid : Int32 := -1
  beginTime : UInt32 := 0
  endTime : UInt32 := 0
  event : Option UInt32 := none
  deriving DecidableEq, Repr

/-- `TimerWin32`, with its `TIMER_ITEM`s and the timers of the kernel that it has set. -/
structure TimerWin32 (κ : Type) where
  timers : AList fun _ : Int32 => Ptr
  onTimer : Option κ
  items : AList fun _ : Nat => MmTimerItem
  kernel : List MmTimer
  /-- `timeKillEvent` has been called with the kernel id of the item. -/
  asked : Nat → Bool
  /-- An item has been deleted before that. -/
  premature : Bool

namespace TimerWin32

variable {κ : Type}

/-- `TimerWin32::TimerWin32`. -/
def init : TimerWin32 κ where
  timers := ∅
  onTimer := none
  items := ∅
  kernel := []
  asked := fun _ => false
  premature := false

/-- `timeKillEvent`; the result tells if it has returned `TIMERR_NOERROR`. -/
def timeKillEvent (t : TimerWin32 κ) (id : UInt32) : TimerWin32 κ × Bool :=
  ({ t with
      kernel := t.kernel.filter (·.id ≠ id)
      asked := fun a => t.asked a || (t.items.lookup a).any (·.event = some id) },
    t.kernel.any (·.id = id))

/-- `new TIMER_ITEM`, and `timeSetEvent` with it as user data. -/
def newItem (t : TimerWin32 κ) (a : Nat) (periodic : Bool) (event : Option UInt32) :
    TimerWin32 κ :=
  { t with
    items := t.items.insert a { event }
    kernel := t.kernel ++ event.toList.map fun id => ⟨id, a, periodic⟩
    asked := Function.update t.asked a false }

/-- `delete` of an item. -/
def delete (t : TimerWin32 κ) (a : Nat) (item : MmTimerItem) : TimerWin32 κ :=
  { t with
    items := t.items.erase a
    premature := t.premature || item.event.isSome && !t.asked a }

/-- The item a pointer leads to. -/
def deref (t : TimerWin32 κ) (p : Ptr) : Except Fault (Nat × MmTimerItem) :=
  match p with
  | none => .error .undefined
  | some a =>
      match t.items.lookup a with
      | none => .error .undefined
      | some item => .ok (a, item)

/-- `_timers[tid]`. -/
def index (t : TimerWin32 κ) (tid : Int32) : TimerWin32 κ × Ptr :=
  match t.timers.lookup tid with
  | some p => (t, p)
  | none => ({ t with timers := t.timers.insert tid none }, none)

/-- `TimerWin32::__start`, at the time `now`. -/
def startEvent (t : TimerWin32 κ) (tid tms : Int32) (func : κ) (periodic : Bool)
    (alloc : Allocator) (set : TimeSetEvent) (now : UInt32) :
    Except Fault (TimerWin32 κ × Int32) := do
  if tid < 0 then return (t, -1)
  let t := { t with onTimer := some func }
  let (t, ptimer) := t.index tid
  let t ← match ptimer with
    | none => pure t
    | some a => do
        let (_, item) ← t.deref (some a)
        pure (t.timeKillEvent item.realTid.toUInt32).1
  let a := alloc.addr t.items.keys
  let event := set.result (t.kernel.map MmTimer.id)
  let t := t.newItem a periodic event
  if tid ≠ 0 then
    let item : MmTimerItem :=
      { tms, tid, beginTime := now, endTime := now, realTid := (event.getD 0).toInt32, event }
    return ({ t with items := t.items.insert a item, timers := t.timers.insert tid (some a) }, tid)
  else
    -- `ptimer->real_tid` is still -1
    return ((t.timeKillEvent (-1 : Int32).toUInt32).1.delete a { event }, tid)

/-- `TimerWin32::start`. -/
def start (t : TimerWin32 κ) (tid tms : Int32) (func : κ) (alloc : Allocator)
    (set : TimeSetEvent) (now : UInt32) : Except Fault (TimerWin32 κ × Int32) :=
  t.startEvent tid tms func true alloc set now

/-- `TimerWin32::start_once`. -/
def startOnce (t : TimerWin32 κ) (tid tms : Int32) (func : κ) (alloc : Allocator)
    (set : TimeSetEvent) (now : UInt32) : Except Fault (TimerWin32 κ × Int32) :=
  t.startEvent tid tms func false alloc set now

/-- An entry is erased and its item deleted. -/
def drop (t : TimerWin32 κ) (tid : Int32) (a : Nat) (item : MmTimerItem) : TimerWin32 κ :=
  { t.delete a item with timers := t.timers.erase tid }

/-- The loop of `kill`, which deletes the first item with the id. -/
def killLoop (t : TimerWin32 κ) (tid : Int32) :
    List TimerEntry → Except Fault (TimerWin32 κ)
  | [] => .ok t
  | ⟨key, p⟩ :: rest => do
      let (a, item) ← t.deref p
      if item.tid = tid then return t.drop key a item
      killLoop t tid rest

/-- `TimerWin32::kill`. -/
def kill (t : TimerWin32 κ) (tid : Int32) (order : Order TimerEntry) :
    Except Fault (TimerWin32 κ) :=
  if tid < 0 then .ok t
  else
    match t.index tid with
    | (t, none) => .ok t
    | (t, some ptimer) => do
        let (_, item) ← t.deref (some ptimer)
        match t.timeKillEvent item.realTid.toUInt32 with
        | (t, true) => t.killLoop tid (order.arrange t.timers.entries)
        | (t, false) => .ok t

/--
`TimerWin32::_timer_cb`, at the time `now`; `answer` is what the callbacks return for the
id and the time since the last call.
-/
def timerCb (t : TimerWin32 κ) (a : Nat) (now : UInt32) (answer : κ → Int32 → UInt32 → Bool)
    (order : Order TimerEntry) : Except Fault (TimerWin32 κ) := do
  let (a, timer) ← t.deref (some a)
  let t := { t with items := t.items.insert a { timer with endTime := now, beginTime := now } }
  match t.onTimer with
  | none => throw .threw    -- an empty `std::function`
  | some onTimer =>
      if answer onTimer timer.tid (now - timer.beginTime) then return t
      t.kill timer.tid order

/-- The kernel has no timer with the id any more. -/
def expired (t : TimerWin32 κ) (id : UInt32) : TimerWin32 κ :=
  { t with kernel := t.kernel.filter (·.id ≠ id) }

/--
The timer of the kernel with the id is due. One that is not periodic is gone afterwards, or
has gone already when the callback is called (`released`).
-/
def expire (t : TimerWin32 κ) (id : UInt32) (released : Bool) (now : UInt32)
    (answer : κ → Int32 → UInt32 → Bool) (order : Order TimerEntry) :
    Except Fault (TimerWin32 κ) :=
  match t.kernel.find? (·.id = id) with
  | none => .ok t
  | some k =>
      if k.periodic then t.timerCb k.user now answer order
      else if released then (t.expired id).timerCb k.user now answer order
      else (t.timerCb k.user now answer order).map (expired · id)

/-- The loop of `TimerWin32::~TimerWin32`. -/
def destructLoop (t : TimerWin32 κ) : List TimerEntry → Except Fault (TimerWin32 κ)
  | [] => .ok t
  | ⟨key, p⟩ :: rest => do
      let (a, item) ← t.deref p
      destructLoop ((t.timeKillEvent item.tid.toUInt32).1.drop key a item) rest

/-- `TimerWin32::~TimerWin32`. -/
def destruct (t : TimerWin32 κ) (order : Order TimerEntry) : Except Fault (TimerWin32 κ) :=
  t.destructLoop (order.arrange t.timers.entries)

/-! ## The three names of a timer -/

/-- Whatever happens, the table leads to items with their ids, and each item has its kernel id. -/
structure Inv (t : TimerWin32 κ) : Prop where
  item : ∀ tid a, t.timers.lookup tid = some (some a) →
    ∃ item, t.items.lookup a = some item ∧ item.tid = tid
  zero : ∀ a, t.timers.lookup 0 ≠ some (some a)
  nonneg : ∀ tid a, t.timers.lookup tid = some (some a) → ¬ tid < 0
  real : ∀ a item, t.items.lookup a = some item → item.realTid.toUInt32 = item.event.getD 0
  nonzero : ∀ k ∈ t.kernel, k.id ≠ 0
  unasked : ∀ k ∈ t.kernel, ∀ item, t.items.lookup k.user = some item →
    item.event = some k.id → t.asked k.user = false
  onTimer : t.kernel ≠ [] → t.onTimer.isSome = true

/--
Each timer of the kernel has an item that is its own and still exists, and no item has been
deleted before `timeKillEvent` was called with its kernel id.
-/
structure Sound (t : TimerWin32 κ) : Prop where
  user : ∀ k ∈ t.kernel, ∃ item, t.items.lookup k.user = some item ∧ item.event = some k.id
  deleted : t.premature = false

/-- Every item is in the table, and the entry of 0 is not null. -/
structure Kept (t : TimerWin32 κ) : Prop where
  item : ∀ a item, t.items.lookup a = some item → t.timers.lookup item.tid = some (some a)
  zero : t.timers.lookup 0 ≠ some none

variable {t : TimerWin32 κ} {tid : Int32} {a : Nat} {item : MmTimerItem} {id : UInt32}

theorem Inv.deref (hi : t.Inv) (ha : t.timers.lookup tid = some (some a)) :
    ∃ item, t.deref (some a) = .ok (a, item) ∧ t.items.lookup a = some item ∧ item.tid = tid := by
  obtain ⟨item, hitem, htid⟩ := hi.item tid a ha
  exact ⟨item, by simp [TimerWin32.deref, hitem], hitem, htid⟩

/-- Two entries do not have the same item. -/
theorem Inv.inj (hi : t.Inv) {j : Int32} (ha : t.timers.lookup tid = some (some a))
    (hj : t.timers.lookup j = some (some a)) : j = tid := by
  obtain ⟨item, hitem, htid⟩ := hi.item tid a ha
  obtain ⟨item', hitem', htid'⟩ := hi.item j a hj
  obtain rfl : item = item' := Option.some.inj (hitem.symm.trans hitem')
  exact htid'.symm.trans htid

/-! ## `timeKillEvent` -/

theorem inv_timeKillEvent (hi : t.Inv) (id : UInt32) : (t.timeKillEvent id).1.Inv where
  item := hi.item
  zero := hi.zero
  nonneg := hi.nonneg
  real := hi.real
  nonzero := fun k hk => hi.nonzero k (List.mem_of_mem_filter hk)
  unasked := by
    intro k hk item hitem hevent
    obtain ⟨hk, hne⟩ := List.mem_filter.mp hk
    have hitem : t.items.lookup k.user = some item := hitem
    have hne : k.id ≠ id := by simpa using hne
    show (t.asked k.user || (t.items.lookup k.user).any fun i => i.event = some id) = false
    rw [hi.unasked k hk item hitem hevent, hitem, Option.any_some, hevent]
    simpa using hne
  onTimer := by
    intro hne
    refine hi.onTimer fun hnil => hne ?_
    show t.kernel.filter (·.id ≠ id) = []
    rw [hnil]
    rfl

theorem sound_timeKillEvent (hs : t.Sound) (id : UInt32) : (t.timeKillEvent id).1.Sound :=
  ⟨fun k hk => hs.user k (List.mem_of_mem_filter hk), hs.deleted⟩

theorem kept_timeKillEvent_iff (id : UInt32) : (t.timeKillEvent id).1.Kept ↔ t.Kept :=
  ⟨fun h => ⟨h.item, h.zero⟩, fun h => ⟨h.item, h.zero⟩⟩

/-- After `timeKillEvent`, the items with that kernel id have been asked for. -/
theorem asked_timeKillEvent (hitem : t.items.lookup a = some item) (hevent : item.event = some id) :
    (t.timeKillEvent id).1.asked a = true := by
  show (t.asked a || (t.items.lookup a).any fun i => i.event = some id) = true
  rw [hitem, Option.any_some, hevent]
  simp

/-- An item without a timer in the kernel has not got one with the id in `real_tid` either. -/
theorem Inv.event_of_any (hi : t.Inv) (hitem : t.items.lookup a = some item)
    (h : (t.timeKillEvent item.realTid.toUInt32).2 = true) :
    item.event = some item.realTid.toUInt32 := by
  obtain ⟨k, hk, hid⟩ := List.any_eq_true.mp h
  have hid : k.id = item.realTid.toUInt32 := by simpa using hid
  have hreal := hi.real a item hitem
  cases hevent : item.event with
  | none =>
      rw [hevent, Option.getD_none] at hreal
      exact absurd (hid.trans hreal) (hi.nonzero k hk)
  | some id =>
      rw [hevent, Option.getD_some] at hreal
      rw [hreal]

/-! ## Deleting an item -/

theorem inv_drop (hi : t.Inv) (ha : t.timers.lookup tid = some (some a)) :
    (t.drop tid a item).Inv where
  item := by
    intro j b hj
    obtain ⟨hjt, hj⟩ := lookup_erase_eq_some.mp hj
    obtain ⟨found, hfound, hfj⟩ := hi.item j b hj
    have hba : b ≠ a := fun hba => hjt (hi.inj ha (hba ▸ hj))
    exact ⟨found, lookup_erase_eq_some.mpr ⟨hba, hfound⟩, hfj⟩
  zero := fun b hb => hi.zero b (lookup_erase_eq_some.mp hb).2
  nonneg := fun j b hj => hi.nonneg j b (lookup_erase_eq_some.mp hj).2
  real := fun b old hb => hi.real b old (lookup_erase_eq_some.mp hb).2
  nonzero := hi.nonzero
  unasked := fun k hk old hold => hi.unasked k hk old (lookup_erase_eq_some.mp hold).2
  onTimer := hi.onTimer

/-- **An item may be deleted once its kernel id has been asked for**, or if it has none. -/
theorem premature_drop_iff (h : t.premature = false) :
    (t.drop tid a item).premature = false ↔ item.event = none ∨ t.asked a = true := by
  show (t.premature || item.event.isSome && !t.asked a) = false ↔ _
  rw [h]
  cases item.event with
  | none => simp
  | some id => simp

theorem sound_drop (hi : t.Inv) (hs : t.Sound) (hitem : t.items.lookup a = some item)
    (hasked : item.event = none ∨ t.asked a = true) : (t.drop tid a item).Sound := by
  refine ⟨fun k hk => ?_, (premature_drop_iff hs.deleted).mpr hasked⟩
  obtain ⟨old, hold, hevent⟩ := hs.user k hk
  refine ⟨old, lookup_erase_eq_some.mpr ⟨fun hka => ?_, hold⟩, hevent⟩
  -- its own timer would still be in the kernel
  obtain rfl : item = old := Option.some.inj (hitem.symm.trans (hka ▸ hold))
  rcases hasked with hnone | hasked
  · exact nomatch hnone.symm.trans hevent
  · have := hi.unasked k hk item hold hevent
    rw [hka, hasked] at this
    exact nomatch this

theorem kept_drop_iff (hi : t.Inv) (ha : t.timers.lookup tid = some (some a)) :
    (t.drop tid a item).Kept ↔ t.Kept := by
  have hzero : (0 : Int32) ≠ tid := fun h => hi.zero a (h ▸ ha)
  refine ⟨fun h => ⟨fun b old hb => ?_, fun hz => ?_⟩, fun h => ⟨fun b old hb => ?_, fun hz => ?_⟩⟩
  · by_cases hba : b = a
    · obtain ⟨found, hfound, htid⟩ := hi.item tid a ha
      obtain rfl : old = found := Option.some.inj ((hba ▸ hb).symm.trans hfound)
      rw [htid, hba]
      exact ha
    · exact (lookup_erase_eq_some.mp (h.item b old (lookup_erase_eq_some.mpr ⟨hba, hb⟩))).2
  · exact h.zero (lookup_erase_eq_some.mpr ⟨hzero, hz⟩)
  · obtain ⟨hba, hb⟩ := lookup_erase_eq_some.mp hb
    have hin := h.item b old hb
    refine lookup_erase_eq_some.mpr ⟨fun hot => ?_, hin⟩
    rw [hot, ha] at hin
    exact hba (Option.some.inj (Option.some.inj hin)).symm
  · exact h.zero (lookup_erase_eq_some.mp hz).2

/-! ## `kill` -/

/-- `_timers[tid]` of an id that is not there. -/
def withNull (t : TimerWin32 κ) (tid : Int32) : TimerWin32 κ :=
  { t with timers := t.timers.insert tid none }

theorem lookup_withNull (t : TimerWin32 κ) (tid j : Int32) :
    (t.withNull tid).timers.lookup j = if j = tid then some none else t.timers.lookup j :=
  lookup_insert_eq t.timers tid j none

/-- The entries that lead to an item are those from before. -/
theorem lookup_of_withNull {j : Int32} (h : (t.withNull tid).timers.lookup j = some (some a)) :
    t.timers.lookup j = some (some a) := by
  rcases lookup_insert_eq_some.mp h with ⟨_, hnull⟩ | ⟨_, hj⟩
  · exact absurd hnull (by simp)
  · exact hj

theorem inv_withNull (hi : t.Inv) (tid : Int32) : (t.withNull tid).Inv where
  item := fun j b hj => hi.item j b (lookup_of_withNull hj)
  zero := fun b hb => hi.zero b (lookup_of_withNull hb)
  nonneg := fun j b hj => hi.nonneg j b (lookup_of_withNull hj)
  real := hi.real
  nonzero := hi.nonzero
  unasked := hi.unasked
  onTimer := hi.onTimer

theorem kept_withNull_iff (hnone : t.timers.lookup tid = none) :
    (t.withNull tid).Kept ↔ t.Kept ∧ tid ≠ 0 := by
  constructor
  · intro h
    refine ⟨⟨fun b old hb => lookup_of_withNull (h.item b old hb), fun hz => ?_⟩, fun h0 => ?_⟩
    · exact h.zero (lookup_insert_eq_some.mpr (Or.inr ⟨ne_of_lookup hnone hz, hz⟩))
    · exact h.zero (lookup_insert_eq_some.mpr (Or.inl ⟨h0.symm, rfl⟩))
  · rintro ⟨h, hne⟩
    refine ⟨fun b old hb => ?_, fun hz => ?_⟩
    · have hin := h.item b old hb
      exact lookup_insert_eq_some.mpr (Or.inr ⟨ne_of_lookup hnone hin, hin⟩)
    · rcases lookup_insert_eq_some.mp hz with ⟨h0, _⟩ | ⟨_, hz⟩
      · exact hne h0.symm
      · exact h.zero hz

/-- Both loops go through entries that are in the table. -/
def Stored (t : TimerWin32 κ) (es : List TimerEntry) : Prop :=
  ∀ e ∈ es, t.timers.lookup e.1 = some e.2

theorem stored_arrange (t : TimerWin32 κ) (order : Order TimerEntry) :
    t.Stored (order.arrange t.timers.entries) := by
  intro e he
  exact AList.mem_lookup_iff.mpr ((order.perm _).mem_iff.mp he)

/-- The loop of `kill` either comes to a null entry first or removes the entry of its id. -/
theorem killLoop_cases (hi : t.Inv) (ha : t.timers.lookup tid = some (some a))
    (hitem : t.items.lookup a = some item) {es : List TimerEntry} (hs : t.Stored es)
    (hmem : ⟨tid, some a⟩ ∈ es) :
    (t.killLoop tid es = .error .undefined ∧ ¬ TimerLinux.NoNullBefore tid es) ∨
      t.killLoop tid es = .ok (t.drop tid a item) ∧ TimerLinux.NoNullBefore tid es := by
  induction es with
  | nil => exact absurd hmem List.not_mem_nil
  | cons e es ih =>
      rcases e with ⟨key, p⟩
      have hentry : t.timers.lookup key = some p := hs _ List.mem_cons_self
      unfold TimerLinux.NoNullBefore
      cases p with
      | none =>
          have hkey : key ≠ tid := by
            intro hkt
            rw [hkt, ha] at hentry
            exact nomatch Option.some.inj hentry
          refine Or.inl ⟨rfl, fun hno => ?_⟩
          rw [List.takeWhile_cons_of_pos (by simpa using hkey)] at hno
          exact hno _ List.mem_cons_self rfl
      | some b =>
          obtain ⟨found, hderef, hfound, hkey⟩ := hi.deref hentry
          by_cases hkt : key = tid
          · subst hkt
            obtain rfl : a = b := Option.some.inj (Option.some.inj (ha.symm.trans hentry))
            obtain rfl : item = found := Option.some.inj (hitem.symm.trans hfound)
            refine Or.inr ⟨?_, ?_⟩
            · simp [killLoop, hderef, hkey, bind, Except.bind, pure, Except.pure]
            · rw [List.takeWhile_cons_of_neg (by simp)]
              exact List.forall_mem_nil _
          · have hrest : (⟨tid, some a⟩ : TimerEntry) ∈ es := by
              rcases List.mem_cons.mp hmem with heq | hrest
              · injection heq with hkt'
                exact absurd hkt'.symm hkt
              · exact hrest
            have htid : found.tid ≠ tid := hkey ▸ hkt
            have hloop : t.killLoop tid (⟨key, some b⟩ :: es) = t.killLoop tid es := by
              simp [killLoop, hderef, htid, bind, Except.bind]
            rw [hloop, List.takeWhile_cons_of_pos (by simpa using hkt), List.forall_mem_cons,
              and_iff_right (Option.some_ne_none b)]
            exact ih (fun e he => hs e (List.mem_cons_of_mem _ he)) hrest

/-- `kill` finds the entry of the id before it comes to a null one, if it goes through them. -/
def Finds (t : TimerWin32 κ) (tid : Int32) (order : Order TimerEntry) : Prop :=
  ∀ a item, t.timers.lookup tid = some (some a) → t.items.lookup a = some item →
    (∃ k ∈ t.kernel, k.id = item.realTid.toUInt32) →
    TimerLinux.NoNullBefore tid (order.arrange t.timers.entries)

/--
**What `kill` does.**

An id that is not there gets a null entry. Where there is an item, `timeKillEvent` is called
with its kernel id; if the kernel has had the timer, the entry is removed and its item
deleted, unless the loop comes to a null entry before.
-/
theorem kill_cases (hi : t.Inv) (hneg : ¬ tid < 0) (order : Order TimerEntry) :
    (t.timers.lookup tid = none ∧ t.kill tid order = .ok (t.withNull tid)) ∨
      (t.timers.lookup tid = some none ∧ t.kill tid order = .ok t) ∨
      ∃ a item, t.timers.lookup tid = some (some a) ∧ t.items.lookup a = some item ∧
        (((¬ ∃ k ∈ t.kernel, k.id = item.realTid.toUInt32) ∧
            t.kill tid order = .ok (t.timeKillEvent item.realTid.toUInt32).1) ∨
          (t.timeKillEvent item.realTid.toUInt32).2 = true ∧
            ((t.kill tid order = .error .undefined ∧ ¬ t.Finds tid order) ∨
              t.kill tid order =
                  .ok ((t.timeKillEvent item.realTid.toUInt32).1.drop tid a item) ∧
                t.Finds tid order)) := by
  unfold kill
  rw [if_neg hneg]
  cases hl : t.timers.lookup tid with
  | none => exact Or.inl ⟨rfl, by simp [index, hl, withNull]⟩
  | some p =>
      cases p with
      | none => exact Or.inr (Or.inl ⟨rfl, by simp [index, hl]⟩)
      | some a =>
          obtain ⟨item, hderef, hitem, _⟩ := hi.deref hl
          refine Or.inr (Or.inr ⟨a, item, rfl, hitem, ?_⟩)
          have hindex : t.index tid = (t, some a) := by simp [index, hl]
          have hany : (t.timeKillEvent item.realTid.toUInt32).2 = true ↔
              ∃ k ∈ t.kernel, k.id = item.realTid.toUInt32 := by simp [timeKillEvent]
          rw [hindex]
          rcases herr : t.timeKillEvent item.realTid.toUInt32 with ⟨t₁, noError⟩
          rw [herr] at hany
          cases noError with
          | false =>
              refine Or.inl ⟨fun h => Bool.false_ne_true (hany.mpr h), ?_⟩
              simp only [hderef, herr, bind, Except.bind]
          | true =>
              have hfirst : t₁ = (t.timeKillEvent item.realTid.toUInt32).1 := by rw [herr]
              have hfinds : t.Finds tid order ↔
                  TimerLinux.NoNullBefore tid (order.arrange t.timers.entries) := by
                refine ⟨fun h => h a item hl hitem (hany.mp rfl), fun h _ _ _ _ _ => h⟩
              have hmem : ⟨tid, some a⟩ ∈ order.arrange t.timers.entries :=
                (order.perm _).mem_iff.mpr (AList.mem_lookup_iff.mp hl)
              have hloop := killLoop_cases (inv_timeKillEvent hi item.realTid.toUInt32) hl hitem
                (stored_arrange t order) hmem
              simp only [hderef, herr, bind, Except.bind, hfinds]
              rw [hfirst]
              exact Or.inr ⟨trivial, hloop⟩

/-- Everything is as it should be: the items are there that are needed, and no others. -/
def Proper (t : TimerWin32 κ) : Prop := t.Sound ∧ t.Kept

theorem inv_kill (hi : t.Inv) {tid : Int32} {order : Order TimerEntry} {t' : TimerWin32 κ}
    (h : t.kill tid order = .ok t') : t'.Inv := by
  by_cases hneg : tid < 0
  · rw [kill, if_pos hneg] at h
    exact Except.ok.inj h ▸ hi
  · rcases kill_cases hi hneg order with ⟨_, hok⟩ | ⟨_, hok⟩ |
      ⟨a, item, ha, _, ⟨_, hok⟩ | ⟨_, ⟨herr, _⟩ | ⟨hok, _⟩⟩⟩
    · exact Except.ok.inj (hok.symm.trans h) ▸ inv_withNull hi tid
    · exact Except.ok.inj (hok.symm.trans h) ▸ hi
    · exact Except.ok.inj (hok.symm.trans h) ▸ inv_timeKillEvent hi _
    · exact nomatch herr.symm.trans h
    · exact Except.ok.inj (hok.symm.trans h) ▸ inv_drop (inv_timeKillEvent hi _) ha

/-- What `kill` leaves out of the table stays out of it. -/
theorem kept_of_kill (hi : t.Inv) {tid : Int32} {order : Order TimerEntry} {t' : TimerWin32 κ}
    (h : t.kill tid order = .ok t') (hk : t'.Kept) : t.Kept := by
  by_cases hneg : tid < 0
  · rw [kill, if_pos hneg] at h
    exact (Except.ok.inj h).symm ▸ hk
  · rcases kill_cases hi hneg order with ⟨hnone, hok⟩ | ⟨_, hok⟩ |
      ⟨a, item, ha, _, ⟨_, hok⟩ | ⟨_, ⟨herr, _⟩ | ⟨hok, _⟩⟩⟩
    · obtain rfl := Except.ok.inj (hok.symm.trans h)
      exact ((kept_withNull_iff hnone).mp hk).1
    · obtain rfl := Except.ok.inj (hok.symm.trans h)
      exact hk
    · obtain rfl := Except.ok.inj (hok.symm.trans h)
      exact (kept_timeKillEvent_iff _).mp hk
    · exact nomatch herr.symm.trans h
    · obtain rfl := Except.ok.inj (hok.symm.trans h)
      exact (kept_timeKillEvent_iff _).mp ((kept_drop_iff (inv_timeKillEvent hi _) ha).mp hk)

/-- A call leaves everything in order, or fails; the condition tells which. -/
def Ends (r : Except Fault (TimerWin32 κ)) (cond : Prop) : Prop :=
  (cond ∧ ∃ t', r = .ok t' ∧ t'.Proper) ∨ ¬ cond ∧ ∃ e, r = .error e

theorem Ends.iff {r : Except Fault (TimerWin32 κ)} {cond : Prop} (h : Ends r cond) :
    (∃ t', r = .ok t' ∧ t'.Proper) ↔ cond := by
  rcases h with ⟨hc, hok⟩ | ⟨hc, e, he⟩
  · exact iff_of_true hok hc
  · refine iff_of_false ?_ hc
    rintro ⟨t', hok, _⟩
    exact nomatch he.symm.trans hok

/-- **`kill`** of an id other than 0 fails if it comes to a null entry first. -/
theorem ends_kill (hi : t.Inv) (hp : t.Proper) {tid : Int32} (hneg : ¬ tid < 0) (hne : tid ≠ 0)
    (order : Order TimerEntry) : Ends (t.kill tid order) (t.Finds tid order) := by
  obtain ⟨hs, hk⟩ := hp
  -- a null entry, or none, is nothing to be found
  have hnull : (∀ a, t.timers.lookup tid ≠ some (some a)) → t.Finds tid order :=
    fun h a _ ha _ _ => absurd ha (h a)
  rcases kill_cases hi hneg order with ⟨hnone, hok⟩ | ⟨hnone, hok⟩ |
    ⟨a, item, ha, hitem, ⟨hgone, hok⟩ | ⟨hthere, ⟨herr, hbad⟩ | ⟨hok, hfinds⟩⟩⟩
  · refine Or.inl ⟨hnull fun a ha => ?_, _, hok, ⟨hs.user, hs.deleted⟩,
      (kept_withNull_iff hnone).mpr ⟨hk, hne⟩⟩
    exact nomatch hnone.symm.trans ha
  · refine Or.inl ⟨hnull fun a ha => ?_, t, hok, hs, hk⟩
    exact nomatch Option.some.inj (hnone.symm.trans ha)
  · refine Or.inl ⟨fun b found hb hfound hthere => ?_, _, hok, sound_timeKillEvent hs _,
      (kept_timeKillEvent_iff _).mpr hk⟩
    obtain rfl : a = b := Option.some.inj (Option.some.inj (ha.symm.trans hb))
    obtain rfl : item = found := Option.some.inj (hitem.symm.trans hfound)
    exact absurd hthere hgone
  · exact Or.inr ⟨hbad, _, herr⟩
  · have hi' := inv_timeKillEvent hi item.realTid.toUInt32
    have hs' := sound_timeKillEvent hs item.realTid.toUInt32
    have hk' := (kept_timeKillEvent_iff item.realTid.toUInt32).mpr hk
    have hasked := asked_timeKillEvent hitem (hi.event_of_any hitem hthere)
    exact Or.inl ⟨hfinds, _, hok, sound_drop hi' hs' hitem (Or.inr hasked),
      (kept_drop_iff hi' ha).mpr hk'⟩

theorem proper_kill_iff (hi : t.Inv) (hp : t.Proper) (tid : Int32) (order : Order TimerEntry) :
    (∃ t', t.kill tid order = .ok t' ∧ t'.Proper) ↔ tid < 0 ∨ tid ≠ 0 ∧ t.Finds tid order := by
  by_cases hneg : tid < 0
  · rw [kill, if_pos hneg]
    exact iff_of_true ⟨t, rfl, hp⟩ (Or.inl hneg)
  · rw [or_iff_right hneg]
    by_cases hzero : tid = 0
    · -- 0 has no entry, and gets a null one
      refine iff_of_false ?_ fun h => h.1 hzero
      rintro ⟨t', hok, _, hk'⟩
      subst hzero
      rcases kill_cases hi hneg order with ⟨hnone, hok'⟩ | ⟨hnull, _⟩ | ⟨a, item, ha, _⟩
      · obtain rfl := Except.ok.inj (hok'.symm.trans hok)
        exact ((kept_withNull_iff hnone).mp hk').2 rfl
      · exact hp.2.zero hnull
      · exact hi.zero a ha
    · rw [and_iff_right hzero]
      exact (ends_kill hi hp hneg hzero order).iff

/-! ## `__start` -/

/-- A new item in the place of whatever the id has had, with its timer of the kernel. -/
def place (t : TimerWin32 κ) (tid : Int32) (a : Nat) (periodic : Bool) (item : MmTimerItem)
    (onTimer : Option κ) : TimerWin32 κ :=
  { timers := t.timers.insert tid (some a)
    onTimer
    items := t.items.insert a item
    kernel := t.kernel ++ item.event.toList.map fun id => ⟨id, a, periodic⟩
    asked := Function.update t.asked a false
    premature := t.premature }

theorem mem_place {periodic : Bool} {onTimer : Option κ} {k : MmTimer}
    (h : k ∈ (t.place tid a periodic item onTimer).kernel) :
    k ∈ t.kernel ∨ k.user = a ∧ item.event = some k.id := by
  rcases List.mem_append.mp h with hold | hnew
  · exact Or.inl hold
  · obtain ⟨id, hid, rfl⟩ := List.mem_map.mp hnew
    exact Or.inr ⟨rfl, Option.mem_toList.mp hid⟩

section Place

variable {periodic : Bool} {func : κ} (hfree : t.items.lookup a = none) (htid : item.tid = tid)
  (hne : tid ≠ 0)

include hfree htid hne

theorem inv_place (hi : t.Inv) (hneg : ¬ tid < 0)
    (hreal : item.realTid.toUInt32 = item.event.getD 0)
    (hnonzero : ∀ id, item.event = some id → id ≠ 0) :
    (t.place tid a periodic item (some func)).Inv where
  item := by
    intro j b hj
    show ∃ found, (t.items.insert a item).lookup b = some found ∧ found.tid = j
    rcases lookup_insert_eq_some.mp hj with ⟨hjt, hab⟩ | ⟨_, hj⟩
    · obtain rfl : a = b := Option.some.inj hab
      exact ⟨item, lookup_insert_eq_some.mpr (Or.inl ⟨rfl, rfl⟩), htid.trans hjt.symm⟩
    · obtain ⟨found, hfound, hfj⟩ := hi.item j b hj
      exact ⟨found, lookup_insert_eq_some.mpr (Or.inr ⟨ne_of_lookup hfree hfound, hfound⟩), hfj⟩
  zero := by
    intro b hb
    rcases lookup_insert_eq_some.mp hb with ⟨h0, _⟩ | ⟨_, hb⟩
    · exact hne h0.symm
    · exact hi.zero b hb
  nonneg := by
    intro j b hj
    rcases lookup_insert_eq_some.mp hj with ⟨hjt, _⟩ | ⟨_, hj⟩
    · exact hjt ▸ hneg
    · exact hi.nonneg j b hj
  real := by
    intro b old hb
    rcases lookup_insert_eq_some.mp hb with ⟨_, hnew⟩ | ⟨_, hb⟩
    · exact hnew ▸ hreal
    · exact hi.real b old hb
  nonzero := by
    intro k hk
    rcases mem_place hk with hold | ⟨_, hevent⟩
    · exact hi.nonzero k hold
    · exact hnonzero k.id hevent
  unasked := by
    intro k hk old hold hevent
    show Function.update t.asked a false k.user = false
    rcases lookup_insert_eq_some.mp hold with ⟨hka, _⟩ | ⟨hka, hold⟩
    · rw [hka]
      exact Function.update_self ..
    · rw [Function.update_of_ne hka]
      rcases mem_place hk with hin | ⟨huser, _⟩
      · exact hi.unasked k hin old hold hevent
      · exact absurd huser hka
  onTimer := fun _ => rfl

theorem kept_place_iff (hi : t.Inv) :
    (t.place tid a periodic item (some func)).Kept ↔
      t.Kept ∧ ∀ b, t.timers.lookup tid ≠ some (some b) := by
  have hzero : (0 : Int32) ≠ tid := fun h => hne h.symm
  constructor
  · intro h
    -- what was there before is kept under another id
    have hold : ∀ b old, t.items.lookup b = some old → old.tid ≠ tid ∧
        t.timers.lookup old.tid = some (some b) := by
      intro b old hb
      have hba := ne_of_lookup hfree hb
      have hin := h.item b old (lookup_insert_eq_some.mpr (Or.inr ⟨hba, hb⟩))
      rcases lookup_insert_eq_some.mp hin with ⟨_, hab⟩ | hin
      · exact absurd (Option.some.inj hab).symm hba
      · exact hin
    refine ⟨⟨fun b old hb => (hold b old hb).2, fun hz => ?_⟩, fun b hb => ?_⟩
    · exact h.zero (lookup_insert_eq_some.mpr (Or.inr ⟨hzero, hz⟩))
    · obtain ⟨old, hold', htid'⟩ := hi.item tid b hb
      exact (hold b old hold').1 htid'
  · rintro ⟨h, hnone⟩
    refine ⟨fun b old hb => ?_, fun hz => ?_⟩
    · rcases lookup_insert_eq_some.mp hb with ⟨hba, hnew⟩ | ⟨_, hb⟩
      · exact lookup_insert_eq_some.mpr (Or.inl ⟨hnew ▸ htid, hba ▸ rfl⟩)
      · have hin := h.item b old hb
        have hot : old.tid ≠ tid := fun hot => hnone b (hot ▸ hin)
        exact lookup_insert_eq_some.mpr (Or.inr ⟨hot, hin⟩)
    · rcases lookup_insert_eq_some.mp hz with ⟨h0, _⟩ | ⟨_, hz⟩
      · exact hzero h0
      · exact h.zero hz

omit htid hne

theorem sound_place (hs : t.Sound) : (t.place tid a periodic item (some func)).Sound where
  user := by
    intro k hk
    show ∃ found, (t.items.insert a item).lookup k.user = some found ∧ found.event = some k.id
    rcases mem_place hk with hold | ⟨huser, hevent⟩
    · obtain ⟨old, hlookup, hevent⟩ := hs.user k hold
      exact ⟨old, lookup_insert_eq_some.mpr (Or.inr ⟨ne_of_lookup hfree hlookup, hlookup⟩), hevent⟩
    · exact ⟨item, lookup_insert_eq_some.mpr (Or.inl ⟨huser, rfl⟩), hevent⟩
  deleted := hs.deleted

end Place

/-- `t₁` is `t` as `__start` finds it when it makes the item, which is to go to the address. -/
structure Ready (t t₁ : TimerWin32 κ) (tid : Int32) (a : Nat) (item : MmTimerItem) : Prop where
  inv : t₁.Inv
  sound : t.Sound → t₁.Sound
  kept : t₁.Kept ↔ t.Kept
  entry : ∀ b, t₁.timers.lookup tid = some (some b) ↔ t.timers.lookup tid = some (some b)
  free : t₁.items.lookup a = none
  tid : item.tid = tid
  real : item.realTid.toUInt32 = item.event.getD 0
  nonzero : ∀ id, item.event = some id → id ≠ 0

theorem notMem_addr (t : TimerWin32 κ) (alloc : Allocator) :
    t.items.lookup (alloc.addr t.items.keys) = none :=
  AList.lookup_eq_none.mpr fun hm => alloc.fresh _ (AList.mem_keys.mp hm)

/-- **A `start` of an id other than 0** places a new item. -/
theorem startEvent_spec (hi : t.Inv) (hneg : ¬ tid < 0) (hne : tid ≠ 0) (tms : Int32) (func : κ)
    (periodic : Bool) (alloc : Allocator) (set : TimeSetEvent) (now : UInt32) :
    ∃ (t₁ : TimerWin32 κ) (a : Nat) (item : MmTimerItem),
      t.startEvent tid tms func periodic alloc set now =
        .ok (t₁.place tid a periodic item (some func), tid) ∧ Ready t t₁ tid a item := by
  -- what is made of the answer of `timeSetEvent`
  let new : TimerWin32 κ → MmTimerItem := fun t₁ =>
    { tms, tid, beginTime := now, endTime := now,
      realTid := ((set.result (t₁.kernel.map MmTimer.id)).getD 0).toInt32,
      event := set.result (t₁.kernel.map MmTimer.id) }
  have hready : ∀ t₁ : TimerWin32 κ, t₁.Inv → (t.Sound → t₁.Sound) → (t₁.Kept ↔ t.Kept) →
      (∀ b, t₁.timers.lookup tid = some (some b) ↔ t.timers.lookup tid = some (some b)) →
      Ready t t₁ tid (alloc.addr t₁.items.keys) (new t₁) :=
    fun t₁ hi₁ hs hk he => ⟨hi₁, hs, hk, he, notMem_addr t₁ alloc, rfl, rfl,
      fun id hid => (set.fresh _ id hid).2⟩
  rcases hl : t.timers.lookup tid with _ | _ | b
  · refine ⟨t.withNull tid, _, _, ?_, hready _ (inv_withNull hi tid)
      (fun hs => ⟨hs.user, hs.deleted⟩) ((kept_withNull_iff hl).trans (and_iff_left hne)) ?_⟩
    · simp [startEvent, hneg, hne, index, hl, withNull, place, newItem, new, pure, bind,
        Except.bind, Except.pure, AList.insert_insert]
    · intro b
      rw [lookup_withNull, if_pos rfl, hl]
      simp
  · refine ⟨t, _, _, ?_, hready t hi id Iff.rfl fun b => Iff.rfl⟩
    simp [startEvent, hneg, hne, index, hl, place, newItem, new, pure, bind, Except.bind,
      Except.pure, AList.insert_insert]
  · obtain ⟨old, hderef, hold, _⟩ := hi.deref hl
    refine ⟨_, _, _, ?_, hready (t.timeKillEvent old.realTid.toUInt32).1
      (inv_timeKillEvent hi _) (fun hs => sound_timeKillEvent hs _) (kept_timeKillEvent_iff _)
      fun c => Iff.rfl⟩
    simp [startEvent, hneg, hne, index, hl, deref, hold, timeKillEvent, place, newItem, new, pure,
      bind, Except.bind, Except.pure, AList.insert_insert]

/-- What `__start` makes of an id of 0: an item that is deleted again, and is not in the table. -/
def discard (t : TimerWin32 κ) (a : Nat) (periodic : Bool) (event : Option UInt32) (func : κ)
    (id : UInt32) : TimerWin32 κ :=
  ((({ t with onTimer := some func } : TimerWin32 κ).newItem a periodic event).timeKillEvent
    id).1.delete a { event }

theorem inv_discard (hi : t.Inv) (hfree : t.items.lookup a = none) {event : Option UInt32}
    (hnonzero : ∀ id, event = some id → id ≠ 0) (periodic : Bool) (func : κ) (id : UInt32) :
    (t.discard a periodic event func id).Inv := by
  have hitems : ∀ b, (t.discard a periodic event func id).items.lookup b = t.items.lookup b := by
    intro b
    show ((t.items.insert a { event }).erase a).lookup b = _
    rw [lookup_erase_eq, lookup_insert_eq]
    by_cases hba : b = a
    · rw [if_pos hba, hba, hfree]
    · rw [if_neg hba, if_neg hba]
  have hkernel : ∀ k ∈ (t.discard a periodic event func id).kernel,
      k.id ≠ id ∧ (k ∈ t.kernel ∨ k.user = a ∧ event = some k.id) := by
    intro k hk
    obtain ⟨hin, hne⟩ := List.mem_filter.mp hk
    refine ⟨by simpa using hne, (List.mem_append.mp hin).imp_right fun hnew => ?_⟩
    obtain ⟨id', hid', rfl⟩ := List.mem_map.mp hnew
    exact ⟨rfl, Option.mem_toList.mp hid'⟩
  refine ⟨fun j b hj => ?_, hi.zero, hi.nonneg, fun b old hb => ?_, fun k hk => ?_,
    fun k hk old hold hev => ?_, fun _ => rfl⟩
  · obtain ⟨old, hold, htid⟩ := hi.item j b hj
    exact ⟨old, (hitems b).trans hold, htid⟩
  · exact hi.real b old ((hitems b).symm.trans hb)
  · rcases (hkernel k hk).2 with hold | ⟨_, hevent⟩
    · exact hi.nonzero k hold
    · exact hnonzero k.id hevent
  · obtain ⟨hne, hwhich⟩ := hkernel k hk
    rw [hitems] at hold
    have hka : k.user ≠ a := ne_of_lookup hfree hold
    have hin : k ∈ t.kernel := hwhich.resolve_right fun h => hka h.1
    show (Function.update t.asked a false k.user ||
      ((t.items.insert a { event }).lookup k.user).any fun i => i.event = some id) = false
    rw [Function.update_of_ne hka, hi.unasked k hin old hold hev, lookup_insert_eq, if_neg hka,
      hold, Option.any_some, hev]
    simpa using hne

/-- **A `start` of 0** leaves a null entry that stays. -/
theorem startEvent_zero (hi : t.Inv) (tms : Int32) (func : κ) (periodic : Bool)
    (alloc : Allocator) (set : TimeSetEvent) (now : UInt32) :
    ∃ t', t.startEvent 0 tms func periodic alloc set now = .ok (t', 0) ∧ t'.Inv ∧ ¬ t'.Kept := by
  have hdiscard : ∀ t₁ : TimerWin32 κ, t₁.Inv → t₁.timers.lookup 0 = some none →
      (t₁.discard (alloc.addr t₁.items.keys) periodic
          (set.result (t₁.kernel.map MmTimer.id)) func (-1 : Int32).toUInt32).Inv ∧
        ¬ (t₁.discard (alloc.addr t₁.items.keys) periodic
          (set.result (t₁.kernel.map MmTimer.id)) func (-1 : Int32).toUInt32).Kept :=
    fun t₁ hi₁ hnull => ⟨inv_discard hi₁ (notMem_addr t₁ alloc)
      (fun id hid => (set.fresh _ id hid).2) periodic func _, fun h => h.zero hnull⟩
  have hneg : ¬ (0 : Int32) < 0 := by decide
  rcases hl : t.timers.lookup 0 with _ | _ | b
  · refine ⟨_, ?_, hdiscard (t.withNull 0) (inv_withNull hi 0) ?_⟩
    · simp [startEvent, hneg, index, hl, withNull, discard, pure, bind, Except.bind, Except.pure]
    · rw [lookup_withNull, if_pos rfl]
  · refine ⟨_, ?_, hdiscard t hi hl⟩
    simp [startEvent, hneg, index, hl, discard, pure, bind, Except.bind, Except.pure]
  · exact absurd hl (hi.zero b)

/-- The id is started that has no item, and it is not 0. -/
def Startable (t : TimerWin32 κ) (tid : Int32) : Prop :=
  tid < 0 ∨ tid ≠ 0 ∧ ∀ a, t.timers.lookup tid ≠ some (some a)

theorem inv_startEvent (hi : t.Inv) (tid tms : Int32) (func : κ) (periodic : Bool)
    (alloc : Allocator) (set : TimeSetEvent) (now : UInt32) :
    ∃ t' r, t.startEvent tid tms func periodic alloc set now = .ok (t', r) ∧ t'.Inv ∧
      (t'.Kept → t.Kept) ∧ (t.Proper → (t'.Proper ↔ t.Startable tid)) := by
  by_cases hneg : tid < 0
  · have hsame : t.startEvent tid tms func periodic alloc set now = .ok (t, -1) := by
      rw [startEvent, if_pos hneg]
      rfl
    exact ⟨t, -1, hsame, hi, id, fun hp => iff_of_true hp (Or.inl hneg)⟩
  · by_cases hzero : tid = 0
    · subst hzero
      obtain ⟨t', hok, hi', hk⟩ := startEvent_zero hi tms func periodic alloc set now
      refine ⟨t', 0, hok, hi', fun h => absurd h hk, fun _ => iff_of_false (fun h => hk h.2) ?_⟩
      rintro (h | ⟨h, _⟩)
      · exact hneg h
      · exact h rfl
    · obtain ⟨t₁, a, item, hok, hr⟩ := startEvent_spec hi hneg hzero tms func periodic alloc set now
      have hi' : (t₁.place tid a periodic item (some func)).Inv :=
        inv_place hr.free hr.tid hzero hr.inv hneg hr.real hr.nonzero
      have hk : (t₁.place tid a periodic item (some func)).Kept ↔ _ :=
        kept_place_iff hr.free hr.tid hzero hr.inv
      refine ⟨_, tid, hok, hi', fun h => hr.kept.mp (hk.mp h).1, fun hp => ?_⟩
      have hs : (t₁.place tid a periodic item (some func)).Sound :=
        sound_place hr.free (hr.sound hp.1)
      unfold Proper Startable
      rw [hk, or_iff_right hneg, and_iff_right hs, and_iff_right hzero,
        and_iff_right (hr.kept.mpr hp.2)]
      exact forall_congr' fun b => not_congr (hr.entry b)

/-! ## Expiry -/

/-- The times of an item are written. -/
def touched (t : TimerWin32 κ) (a : Nat) (item : MmTimerItem) (now : UInt32) : TimerWin32 κ :=
  { t with items := t.items.insert a { item with endTime := now, beginTime := now } }

theorem lookup_touched {now : UInt32} (b : Nat) :
    (t.touched a item now).items.lookup b =
      if b = a then some { item with endTime := now, beginTime := now } else t.items.lookup b :=
  lookup_insert_eq t.items a b _

/-- What is written is the times only. -/
theorem touched_cases (hitem : t.items.lookup a = some item) {now : UInt32} (b : Nat) :
    (∀ old, t.items.lookup b = some old → ∃ new, (t.touched a item now).items.lookup b = some new ∧
        new.tid = old.tid ∧ new.realTid = old.realTid ∧ new.event = old.event) ∧
      ∀ new, (t.touched a item now).items.lookup b = some new → ∃ old, t.items.lookup b = some old ∧
        new.tid = old.tid ∧ new.realTid = old.realTid ∧ new.event = old.event := by
  rw [lookup_touched]
  by_cases hba : b = a
  · rw [if_pos hba, hba, hitem]
    refine ⟨fun old hold => ⟨_, rfl, ?_⟩, fun new hnew => ⟨item, rfl, ?_⟩⟩
    · rw [← Option.some.inj hold]
      exact ⟨rfl, rfl, rfl⟩
    · rw [← Option.some.inj hnew]
      exact ⟨rfl, rfl, rfl⟩
  · rw [if_neg hba]
    exact ⟨fun old hold => ⟨old, hold, rfl, rfl, rfl⟩, fun new hnew => ⟨new, hnew, rfl, rfl, rfl⟩⟩

section Touched

variable {now : UInt32} (hitem : t.items.lookup a = some item)

include hitem

theorem inv_touched (hi : t.Inv) : (t.touched a item now).Inv where
  item := by
    intro j b hj
    obtain ⟨old, hold, htid⟩ := hi.item j b hj
    obtain ⟨new, hnew, htid', _⟩ := (touched_cases hitem b).1 old hold
    exact ⟨new, hnew, htid'.trans htid⟩
  zero := hi.zero
  nonneg := hi.nonneg
  real := by
    intro b new hnew
    obtain ⟨old, hold, _, hreal, hevent⟩ := (touched_cases hitem b).2 new hnew
    rw [hreal, hevent]
    exact hi.real b old hold
  nonzero := hi.nonzero
  unasked := by
    intro k hk new hnew hevent
    obtain ⟨old, hold, _, _, hsame⟩ := (touched_cases hitem k.user).2 new hnew
    exact hi.unasked k hk old hold (hsame ▸ hevent)
  onTimer := hi.onTimer

theorem sound_touched (hs : t.Sound) : (t.touched a item now).Sound where
  user := by
    intro k hk
    obtain ⟨old, hold, hevent⟩ := hs.user k hk
    obtain ⟨new, hnew, _, _, hsame⟩ := (touched_cases hitem k.user).1 old hold
    exact ⟨new, hnew, hsame.trans hevent⟩
  deleted := hs.deleted

theorem kept_touched_iff : (t.touched a item now).Kept ↔ t.Kept := by
  refine ⟨fun h => ⟨fun b old hold => ?_, h.zero⟩, fun h => ⟨fun b new hnew => ?_, h.zero⟩⟩
  · obtain ⟨new, hnew, htid, _⟩ := (touched_cases hitem b).1 old hold
    exact htid ▸ h.item b new hnew
  · obtain ⟨old, hold, htid, _⟩ := (touched_cases hitem b).2 new hnew
    exact htid ▸ h.item b old hold

theorem finds_touched_iff (tid : Int32) (order : Order TimerEntry) :
    (t.touched a item now).Finds tid order ↔ t.Finds tid order := by
  refine ⟨fun h b old hb hold hk => ?_, fun h b new hb hnew hk => ?_⟩
  · obtain ⟨new, hnew, _, hreal, _⟩ := (touched_cases hitem b).1 old hold
    exact h b new hb hnew (hreal ▸ hk)
  · obtain ⟨old, hold, _, hreal, _⟩ := (touched_cases hitem b).2 new hnew
    exact h b old hb hold (hreal ▸ hk)

end Touched

/-- The callback is called, and a timer whose callback returns false is killed. -/
theorem timerCb_eq (hitem : t.items.lookup a = some item) {f : κ} (hf : t.onTimer = some f)
    (now : UInt32) (answer : κ → Int32 → UInt32 → Bool) (order : Order TimerEntry) :
    t.timerCb a now answer order =
      if answer f item.tid (now - item.beginTime) then .ok (t.touched a item now)
      else (t.touched a item now).kill item.tid order := by
  simp [timerCb, deref, hitem, hf, touched, bind, Except.bind, pure, Except.pure]

theorem inv_timerCb (hi : t.Inv) {now : UInt32} {answer : κ → Int32 → UInt32 → Bool}
    {order : Order TimerEntry} {t' : TimerWin32 κ} (hf : t.onTimer.isSome = true)
    (h : t.timerCb a now answer order = .ok t') : t'.Inv ∧ (t'.Kept → t.Kept) := by
  obtain ⟨f, hf⟩ := Option.isSome_iff_exists.mp hf
  cases hitem : t.items.lookup a with
  | none =>
      have herr : t.timerCb a now answer order = .error .undefined := by
        simp [timerCb, deref, hitem, bind, Except.bind]
      exact nomatch herr.symm.trans h
  | some item =>
      rw [timerCb_eq hitem hf] at h
      split at h
      · obtain rfl := Except.ok.inj h
        exact ⟨inv_touched hitem hi, (kept_touched_iff hitem).mp⟩
      · have hi' : (t.touched a item now).Inv := inv_touched hitem hi
        exact ⟨inv_kill hi' h, fun hk => (kept_touched_iff hitem).mp (kept_of_kill hi' h hk)⟩

/-- What a callback leaves is in order, if what is killed after it is found. -/
theorem ends_timerCb (hi : t.Inv) (hp : t.Proper) (hitem : t.items.lookup a = some item) {f : κ}
    (hf : t.onTimer = some f) (now : UInt32) (answer : κ → Int32 → UInt32 → Bool)
    (order : Order TimerEntry) :
    Ends (t.timerCb a now answer order)
      (answer f item.tid (now - item.beginTime) = false → t.Finds item.tid order) := by
  have hi' : (t.touched a item now).Inv := inv_touched hitem hi
  have hp' : (t.touched a item now).Proper :=
    ⟨sound_touched hitem hp.1, (kept_touched_iff hitem).mpr hp.2⟩
  rw [timerCb_eq hitem hf]
  cases answer f item.tid (now - item.beginTime) with
  | true => exact Or.inl ⟨(fun h => nomatch h), _, if_pos rfl, hp'⟩
  | false =>
      have hentry := hp.2.item a item hitem
      have hne : item.tid ≠ 0 := fun h0 => hi.zero a (h0 ▸ hentry)
      have hfinds : (t.touched a item now).Finds item.tid order ↔ t.Finds item.tid order :=
        finds_touched_iff hitem item.tid order
      rw [if_neg Bool.false_ne_true, forall_prop_of_true rfl, ← hfinds]
      exact ends_kill hi' hp' (hi.nonneg item.tid a hentry) hne order

theorem inv_expired (hi : t.Inv) (id : UInt32) : (t.expired id).Inv where
  item := hi.item
  zero := hi.zero
  nonneg := hi.nonneg
  real := hi.real
  nonzero := fun k hk => hi.nonzero k (List.mem_of_mem_filter hk)
  unasked := fun k hk => hi.unasked k (List.mem_of_mem_filter hk)
  onTimer := (inv_timeKillEvent hi id).onTimer

theorem kept_expired_iff (id : UInt32) : (t.expired id).Kept ↔ t.Kept :=
  ⟨fun h => ⟨h.item, h.zero⟩, fun h => ⟨h.item, h.zero⟩⟩

theorem proper_expired (hp : t.Proper) (id : UInt32) : (t.expired id).Proper :=
  ⟨⟨fun k hk => hp.1.user k (List.mem_of_mem_filter hk), hp.1.deleted⟩,
    (kept_expired_iff id).mpr hp.2⟩

/-- If the callback of the timer that is due returns false, `kill` finds what it looks for. -/
def ExpiryFinds (t : TimerWin32 κ) (id : UInt32) (released : Bool) (now : UInt32)
    (answer : κ → Int32 → UInt32 → Bool) (order : Order TimerEntry) : Prop :=
  ∀ k item f, t.kernel.find? (·.id = id) = some k → t.items.lookup k.user = some item →
    t.onTimer = some f → answer f item.tid (now - item.beginTime) = false →
    (if !k.periodic && released then t.expired id else t).Finds item.tid order

theorem expiryFinds_iff {released : Bool} {now : UInt32} {answer : κ → Int32 → UInt32 → Bool}
    {order : Order TimerEntry} {k : MmTimer} {f : κ} (hk : t.kernel.find? (·.id = id) = some k)
    (hitem : t.items.lookup k.user = some item) (hf : t.onTimer = some f) :
    t.ExpiryFinds id released now answer order ↔
      (answer f item.tid (now - item.beginTime) = false →
        (if !k.periodic && released then t.expired id else t).Finds item.tid order) := by
  refine ⟨fun h => h k item f hk hitem hf, ?_⟩
  intro h k' item' f' hk' hitem' hf'
  obtain rfl := Option.some.inj (hk.symm.trans hk')
  obtain rfl := Option.some.inj (hitem.symm.trans hitem')
  obtain rfl := Option.some.inj (hf.symm.trans hf')
  exact h

theorem expire_eq {k : MmTimer} (hk : t.kernel.find? (·.id = id) = some k) (released : Bool)
    (now : UInt32) (answer : κ → Int32 → UInt32 → Bool) (order : Order TimerEntry) :
    t.expire id released now answer order =
      if k.periodic then t.timerCb k.user now answer order
      else if released then (t.expired id).timerCb k.user now answer order
      else (t.timerCb k.user now answer order).map (expired · id) := by
  simp [expire, hk]

theorem inv_expire (hi : t.Inv) {released : Bool} {now : UInt32}
    {answer : κ → Int32 → UInt32 → Bool} {order : Order TimerEntry} {t' : TimerWin32 κ}
    (h : t.expire id released now answer order = .ok t') : t'.Inv ∧ (t'.Kept → t.Kept) := by
  cases hk : t.kernel.find? (·.id = id) with
  | none =>
      have hsame : t.expire id released now answer order = .ok t := by simp [expire, hk]
      obtain rfl := Except.ok.inj (hsame.symm.trans h)
      exact ⟨hi, fun h => h⟩
  | some k =>
      have hfun : t.onTimer.isSome = true :=
        hi.onTimer (List.ne_nil_of_mem (List.mem_of_find?_eq_some hk))
      rw [expire_eq hk] at h
      split at h
      · exact inv_timerCb hi hfun h
      · split at h
        · obtain ⟨hi', hk'⟩ := inv_timerCb (inv_expired hi id) hfun h
          exact ⟨hi', fun h => (kept_expired_iff id).mp (hk' h)⟩
        · cases hcb : t.timerCb k.user now answer order with
          | error e =>
              rw [hcb] at h
              exact nomatch h
          | ok t₁ =>
              rw [hcb] at h
              obtain rfl := Except.ok.inj h
              obtain ⟨hi', hk'⟩ := inv_timerCb hi hfun hcb
              exact ⟨inv_expired hi' id, fun h => hk' ((kept_expired_iff id).mp h)⟩

/-- **A timer of the kernel is due.** -/
theorem ends_expire (hi : t.Inv) (hp : t.Proper) (id : UInt32) (released : Bool) (now : UInt32)
    (answer : κ → Int32 → UInt32 → Bool) (order : Order TimerEntry) :
    Ends (t.expire id released now answer order)
      (t.ExpiryFinds id released now answer order) := by
  cases hk : t.kernel.find? (·.id = id) with
  | none =>
      have hsame : t.expire id released now answer order = .ok t := by simp [expire, hk]
      exact Or.inl ⟨(fun k item f h => nomatch hk.symm.trans h), t, hsame, hp⟩
  | some k =>
      have hmem : k ∈ t.kernel := List.mem_of_find?_eq_some hk
      obtain ⟨f, hf⟩ := Option.isSome_iff_exists.mp (hi.onTimer (List.ne_nil_of_mem hmem))
      obtain ⟨item, hitem, _⟩ := hp.1.user k hmem
      have hnow := ends_timerCb hi hp hitem hf now answer order
      have hgone :=
        ends_timerCb (inv_expired hi id) (proper_expired hp id) hitem hf now answer order
      rw [expire_eq hk, expiryFinds_iff hk hitem hf]
      cases k.periodic with
      | true => exact hnow
      | false =>
          cases released with
          | true => exact hgone
          | false =>
              rcases hnow with ⟨hc, t', hok, hp'⟩ | ⟨hc, e, he⟩
              · exact Or.inl ⟨hc, _, congrArg (Except.map (expired · id)) hok,
                  proper_expired hp' id⟩
              · exact Or.inr ⟨hc, e, congrArg (Except.map (expired · id)) he⟩

end TimerWin32

end NanomsgDemo.Net

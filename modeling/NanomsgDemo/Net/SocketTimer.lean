import Mathlib.Data.List.AList
import NanomsgDemo.Lib.Recycling
import NanomsgDemo.Lib.Runs
import NanomsgDemo.Net.SocketSession

/-!
# Timers

`libnet/socket_timer.cpp`: `TimerLinux` keeps a `TIMER_ITEM` for each timer id, each
with an event of libevent, and one callback for all of them. The table maps ids to
pointers and is read with `operator[]`, which makes a null entry of a missing one;
`kill` and `destroy` go through all entries and read what they point to. The events are
persistent ones: libevent schedules them anew when they fire, but for those whose time is
zero.

Items are objects on a heap, so that reading a deleted one is seen. Going through
an `unordered_map` takes the entries in an order of its own (`Order`). The result
of `event_add` and the answer of a callback come with the action.
-/

namespace NanomsgDemo.Net

open Runs Recycling

/-- The order in which an `unordered_map` is gone through. -/
structure Order (α : Type) where
  arrange : List α → List α
  perm : ∀ l, (arrange l).Perm l

/-- The order in which the entries are stored. -/
def Order.stored (α : Type) : Order α := ⟨id, fun _ => .refl _⟩

/-- Why a call does not return. -/
inductive Fault where
  | undefined
  | threw
  deriving DecidableEq, Repr

/-- `struct timeval`. -/
structure Timeval where
  tvSec : Int32
  tvUsec : Int32
  deriving DecidableEq, Repr

/-- `TIMER_ITEM`, with the time its event is scheduled for. -/
structure TimerItem where
  tms : Int32 := -1
  tid : Int32 := -1
  timeout : Option Timeval := none
  deriving DecidableEq, Repr

/-- `event_persist_closure` of libevent: an event that fires is added again, if it has a time. -/
def TimerItem.persist (item : TimerItem) : TimerItem :=
  { item with timeout := item.timeout.filter fun tv => tv ≠ ⟨0, 0⟩ }

/-- An entry of `TIMERS`. -/
abbrev TimerEntry := Sigma fun _ : Int32 => Ptr

/-- `TimerLinux`, with its `TIMER_ITEM`s. -/
structure TimerLinux (κ : Type) where
  processor : Ptr
  timers : AList fun _ : Int32 => Ptr
  onTimer : Option κ
  items : AList fun _ : Nat => TimerItem

namespace TimerLinux

variable {κ : Type}

/-- `TimerLinux::TimerLinux`. -/
def init : TimerLinux κ where
  processor := none
  timers := ∅
  onTimer := none
  items := ∅

/-- `TimerLinux::create`. -/
def create (t : TimerLinux κ) (processor : Ptr) : TimerLinux κ × Int32 :=
  ({ t with processor }, 1)

/-- The item a pointer leads to. -/
def deref (t : TimerLinux κ) (p : Ptr) : Except Fault (Nat × TimerItem) :=
  match p with
  | none => .error .undefined
  | some a =>
      match t.items.lookup a with
      | none => .error .undefined
      | some item => .ok (a, item)

/-- `_timers[tid]`. -/
def index (t : TimerLinux κ) (tid : Int32) : TimerLinux κ × Ptr :=
  match t.timers.lookup tid with
  | some p => (t, p)
  | none => ({ t with timers := t.timers.insert tid none }, none)

/-- The item at an address is written to. -/
def write (t : TimerLinux κ) (a : Nat) (item : TimerItem) : TimerLinux κ :=
  { t with items := t.items.insert a item }

/-- An entry is erased and its item deleted. -/
def drop (t : TimerLinux κ) (tid : Int32) (a : Nat) : TimerLinux κ :=
  { t with timers := t.timers.erase tid, items := t.items.erase a }

/-- The time `start` asks for. -/
def timevalOf (tms : Int32) : Timeval := ⟨tms / 1000, tms % 1000 * 1000⟩

/--
`TimerLinux::start`: `alloc` is the allocation of a new item, `add` the result of
`event_add`, which schedules the event if it is zero.
-/
def start (t : TimerLinux κ) (tid tms : Int32) (func : κ) (alloc : Allocator) (add : Int32) :
    Except Fault (TimerLinux κ × Int32) := do
  if tid < 0 then return (t, -1)
  let t := { t with onTimer := some func }
  let (t, ptimer) := t.index tid
  let (t, ptimer) ← match ptimer with
    | none =>
        let a := alloc.addr t.items.keys
        pure ({ t with timers := t.timers.insert tid (some a), items := t.items.insert a {} }, a)
    | some a => do
        let (a, item) ← t.deref (some a)
        pure (t.write a { item with timeout := none }, a)
  match t.processor with
  | none => throw .undefined    -- `_processor->getBase()`
  | some _ =>
      let timeout := if add = 0 then some (timevalOf tms) else none
      return (t.write ptimer { tid, tms, timeout }, add)

/-- `TimerLinux::start_once`. -/
def startOnce (t : TimerLinux κ) (_tid _tms : Int32) (_func : κ) : TimerLinux κ × Int32 := (t, 0)

/-- The loop of `kill`, which deletes the first item with the id; `ptimer` is the one looked up. -/
def killLoop (t : TimerLinux κ) (ptimer : Nat) (tid : Int32) :
    List TimerEntry → Except Fault (TimerLinux κ)
  | [] => .ok t
  | ⟨key, p⟩ :: rest => do
      let (a, timer) ← t.deref p
      if timer.tid = tid then
        let (b, item) ← t.deref (some ptimer)
        return (t.write b { item with timeout := none }).drop key a
      killLoop t ptimer tid rest

/-- `TimerLinux::kill`. -/
def kill (t : TimerLinux κ) (tid : Int32) (order : Order TimerEntry) :
    Except Fault (TimerLinux κ) :=
  if tid < 0 then .ok t
  else
    match t.index tid with
    | (t, none) => .ok t
    | (t, some ptimer) => t.killLoop ptimer tid (order.arrange t.timers.entries)

/-- The loop of `destroy`. -/
def destroyLoop (t : TimerLinux κ) : List TimerEntry → Except Fault (TimerLinux κ)
  | [] => .ok t
  | ⟨key, p⟩ :: rest => do
      let (a, _) ← t.deref p
      destroyLoop (t.drop key a) rest

/-- `TimerLinux::destroy`. -/
def destroy (t : TimerLinux κ) (order : Order TimerEntry) : Except Fault (TimerLinux κ) :=
  t.destroyLoop (order.arrange t.timers.entries)

/--
`TimerLinux::_timer_cb`, with the callback that is called and what with; `answer` is
what the callbacks return.
-/
def timerCb (t : TimerLinux κ) (timer : Ptr) (answer : κ → Int32 → UInt32 → Bool)
    (order : Order TimerEntry) : List (κ × Int32 × UInt32) × Except Fault (TimerLinux κ) :=
  match t.deref timer with
  | .error e => ([], .error e)
  | .ok (_, ptimer) =>
      match t.onTimer with
      | none => ([], .error .threw)    -- an empty `std::function`
      | some onTimer =>
          ([(onTimer, ptimer.tid, 0)],
            if answer onTimer ptimer.tid 0 then .ok t else t.kill ptimer.tid order)

/-! ## The table and the items -/

/-- The entries that are not null are the items, each under its own id. -/
structure Linked (t : TimerLinux κ) : Prop where
  item : ∀ tid a, t.timers.lookup tid = some (some a) →
    ∃ item, t.items.lookup a = some item ∧ item.tid = tid
  entry : ∀ a item, t.items.lookup a = some item →
    t.timers.lookup item.tid = some (some a) ∧ 0 ≤ item.tid

/-- Each entry is an item with that id, and its event is scheduled. -/
def Sound (t : TimerLinux κ) : Prop :=
  ∀ tid p, t.timers.lookup tid = some p →
    ∃ a item, p = some a ∧ t.items.lookup a = some item ∧ item.tid = tid ∧
      item.timeout.isSome = true

/-- In `t'` the id has the item, at an address that was its own before or was free. -/
structure Placed (t t' : TimerLinux κ) (tid : Int32) (a : Nat) (item : TimerItem) : Prop where
  timers : ∀ j, t'.timers.lookup j = if j = tid then some (some a) else t.timers.lookup j
  items : ∀ b, t'.items.lookup b = if b = a then some item else t.items.lookup b
  processor : t'.processor = t.processor
  only : ∀ b, t.timers.lookup tid = some (some b) → b = a
  own : ∀ old, t.items.lookup a = some old → old.tid = tid

/-- In `t'` the id and its item are gone, and nothing else is. -/
structure Removed (t t' : TimerLinux κ) (tid : Int32) (a : Nat) : Prop where
  timers : ∀ j, t'.timers.lookup j = if j = tid then none else t.timers.lookup j
  items : ∀ b, t'.items.lookup b = if b = a then none else t.items.lookup b
  processor : t'.processor = t.processor
  onTimer : t'.onTimer = t.onTimer

variable {t t' : TimerLinux κ} {tid : Int32} {a : Nat} {item : TimerItem}

theorem linked_create (p : Ptr) : ((init : TimerLinux κ).create p).1.Linked where
  item := by
    intro tid a h
    exact absurd h (by simp [create, init])
  entry := by
    intro a item h
    exact absurd h (by simp [create, init])

theorem Linked.deref (h : t.Linked) (ha : t.timers.lookup tid = some (some a)) :
    ∃ item, t.deref (some a) = .ok (a, item) ∧ t.items.lookup a = some item ∧ item.tid = tid := by
  rcases h.item tid a ha with ⟨item, hitem, htid⟩
  exact ⟨item, by simp [TimerLinux.deref, hitem], hitem, htid⟩

theorem Linked.placed (h : t.Linked) (hp : Placed t t' tid a item) (htid : item.tid = tid)
    (hpos : 0 ≤ tid) : t'.Linked where
  item := by
    intro j b hj
    rw [hp.timers] at hj
    by_cases hjt : j = tid
    · rw [if_pos hjt] at hj
      cases hj
      exact ⟨item, by rw [hp.items, if_pos rfl], htid.trans hjt.symm⟩
    · rw [if_neg hjt] at hj
      rcases h.item j b hj with ⟨old, hold, hj'⟩
      -- another id has another item
      have hba : b ≠ a := by
        intro hba
        subst hba
        exact hjt (hj'.symm.trans (hp.own old hold))
      exact ⟨old, by rw [hp.items, if_neg hba, hold], hj'⟩
  entry := by
    intro b old hb
    rw [hp.items] at hb
    rw [hp.timers]
    by_cases hba : b = a
    · rw [if_pos hba] at hb
      cases hb
      rw [if_pos htid, hba]
      exact ⟨rfl, htid ▸ hpos⟩
    · rw [if_neg hba] at hb
      rcases h.entry b old hb with ⟨hentry, hold⟩
      have hne : old.tid ≠ tid := by
        intro hot
        exact hba (hp.only b (hot ▸ hentry))
      rw [if_neg hne]
      exact ⟨hentry, hold⟩

theorem Linked.removed (h : t.Linked) (ha : t.timers.lookup tid = some (some a))
    (hr : Removed t t' tid a) : t'.Linked where
  item := by
    intro j b hj
    rw [hr.timers] at hj
    by_cases hjt : j = tid
    · rw [if_pos hjt] at hj
      exact absurd hj (by simp)
    · rw [if_neg hjt] at hj
      rcases h.item j b hj with ⟨old, hold, hj'⟩
      have hba : b ≠ a := by
        intro hba
        subst hba
        rcases h.item tid b ha with ⟨old', hold', htid⟩
        rw [hold] at hold'
        cases hold'
        exact hjt (hj'.symm.trans htid)
      exact ⟨old, by rw [hr.items, if_neg hba, hold], hj'⟩
  entry := by
    intro b old hb
    rw [hr.items] at hb
    by_cases hba : b = a
    · rw [if_pos hba] at hb
      exact absurd hb (by simp)
    · rw [if_neg hba] at hb
      rcases h.entry b old hb with ⟨hentry, hold⟩
      have hne : old.tid ≠ tid := by
        intro hot
        rw [hot, ha] at hentry
        exact hba (Option.some.inj (Option.some.inj hentry)).symm
      rw [hr.timers, if_neg hne]
      exact ⟨hentry, hold⟩

/-- An item under its id is written over. -/
theorem placed_own (h : t.Linked) (ha : t.timers.lookup tid = some (some a)) (item : TimerItem) :
    Placed t (t.write a item) tid a item where
  timers := by
    intro j
    by_cases hj : j = tid
    · rw [if_pos hj, hj]
      exact ha
    · rw [if_neg hj]
      rfl
  items := fun b => lookup_insert_eq t.items a b item
  processor := rfl
  only := by
    intro b hb
    rw [ha] at hb
    exact (Option.some.inj (Option.some.inj hb)).symm
  own := by
    intro old ho
    rcases h.item tid a ha with ⟨found, hfound, htid⟩
    rw [hfound] at ho
    exact Option.some.inj ho ▸ htid

theorem removed_drop (t : TimerLinux κ) (tid : Int32) (a : Nat) :
    Removed t (t.drop tid a) tid a where
  timers := lookup_erase_eq t.timers tid
  items := lookup_erase_eq t.items a
  processor := rfl
  onTimer := rfl

theorem lookup_write (t : TimerLinux κ) (b : Nat) :
    (t.write a item).items.lookup b = if b = a then some item else t.items.lookup b :=
  lookup_insert_eq t.items a b item

theorem Removed.of_write (h : Removed (t.write a item) t' tid a) : Removed t t' tid a where
  timers := h.timers
  items := by
    intro b
    rw [h.items, lookup_write]
    by_cases hb : b = a
    · rw [if_pos hb, if_pos hb]
    · rw [if_neg hb, if_neg hb, if_neg hb]
  processor := h.processor
  onTimer := h.onTimer

/-! ## What the methods do -/

/-- A new item for an id that has none. -/
theorem placed_insert (timers : AList fun _ : Int32 => Ptr) (new : TimerItem) {onTimer : Option κ}
    (htimers : ∀ j, j ≠ tid → timers.lookup j = t.timers.lookup j)
    (hnone : ∀ b, t.timers.lookup tid ≠ some (some b)) (hfree : t.items.lookup a = none) :
    Placed t (({ processor := t.processor, timers := timers.insert tid (some a), onTimer,
                 items := t.items.insert a new } : TimerLinux κ).write a item) tid a item where
  timers := by
    intro j
    refine (lookup_insert_eq timers tid j (some a)).trans ?_
    exact ite_congr rfl (fun _ => rfl) fun hj => htimers j hj
  items := by
    intro b
    rw [lookup_write]
    by_cases hb : b = a
    · rw [if_pos hb, if_pos hb]
    · rw [if_neg hb, if_neg hb]
      exact AList.lookup_insert_ne hb
  processor := rfl
  only := fun b hb => absurd hb (hnone b)
  own := by
    intro old ho
    rw [hfree] at ho
    exact absurd ho (by simp)

/-- The item of an id is written over. -/
theorem placed_write (old : TimerItem) (onTimer : Option κ) (h : t.Linked)
    (ha : t.timers.lookup tid = some (some a)) :
    Placed t ((({ t with onTimer } : TimerLinux κ).write a old).write a item) tid a item where
  timers := by
    intro j
    by_cases hj : j = tid
    · rw [if_pos hj, hj]
      exact ha
    · rw [if_neg hj]
      rfl
  items := by
    intro b
    rw [lookup_write, lookup_write]
    by_cases hb : b = a
    · rw [if_pos hb, if_pos hb]
    · rw [if_neg hb, if_neg hb, if_neg hb]
  processor := rfl
  only := by
    intro b hb
    rw [ha] at hb
    exact (Option.some.inj (Option.some.inj hb)).symm
  own := by
    intro old ho
    rcases h.item tid a ha with ⟨item, hitem, htid⟩
    rw [hitem] at ho
    exact Option.some.inj ho ▸ htid

/-- **`start` puts one scheduled item under the id** and makes its callback that of all timers. -/
theorem start_spec (h : t.Linked) (hproc : t.processor.isSome = true) {tid : Int32}
    (hpos : 0 ≤ tid) (tms : Int32) (func : κ) (alloc : Allocator) (add : Int32) :
    ∃ t' a, t.start tid tms func alloc add = .ok (t', add) ∧ t'.onTimer = some func ∧
      Placed t t' tid a ⟨tms, tid, if add = 0 then some (timevalOf tms) else none⟩ := by
  have hneg : ¬ tid < 0 := by
    intro hlt
    rw [Int32.lt_iff_toInt_lt] at hlt
    rw [Int32.le_iff_toInt_le] at hpos
    omega
  rcases Option.isSome_iff_exists.mp hproc with ⟨processor, hprocessor⟩
  have hfree : t.items.lookup (alloc.addr t.items.keys) = none :=
    AList.lookup_eq_none.mpr fun hm => alloc.fresh _ (AList.mem_keys.mp hm)
  cases hl : t.timers.lookup tid with
  | none =>
      refine ⟨_, alloc.addr t.items.keys, ?_, rfl, placed_insert (t.timers.insert tid none) {}
        (fun j hj => AList.lookup_insert_ne hj) (by simp [hl]) hfree⟩
      simp [start, hneg, index, hl, hprocessor, pure, bind, Except.bind, Except.pure]
  | some p =>
      cases p with
      | none =>
          refine ⟨_, alloc.addr t.items.keys, ?_, rfl, placed_insert t.timers {}
            (fun _ _ => rfl) (by simp [hl]) hfree⟩
          simp [start, hneg, index, hl, hprocessor, pure, bind, Except.bind, Except.pure]
      | some a =>
          rcases h.item tid a hl with ⟨old, hold, _⟩
          refine ⟨_, a, ?_, rfl, placed_write { old with timeout := none } (some func) h hl⟩
          simp [start, hneg, index, hl, hprocessor, hold, deref, write, pure, bind, Except.bind,
            Except.pure]

/-- A table with a scheduled item put into it is sound, and with an unscheduled one it is not. -/
theorem sound_placed_iff (hs : t.Sound) (hp : Placed t t' tid a item)
    (htid : item.tid = tid) : t'.Sound ↔ item.timeout.isSome = true := by
  constructor
  · intro hs'
    rcases hs' tid (some a) (by rw [hp.timers, if_pos rfl]) with ⟨b, found, hb, hfound, _, htime⟩
    cases hb
    rw [hp.items, if_pos rfl] at hfound
    exact Option.some.inj hfound ▸ htime
  · intro htime j q hj
    rw [hp.timers] at hj
    by_cases hjt : j = tid
    · rw [if_pos hjt] at hj
      exact ⟨a, item, (Option.some.inj hj).symm, by rw [hp.items, if_pos rfl],
        htid.trans hjt.symm, htime⟩
    · rw [if_neg hjt] at hj
      rcases hs j q hj with ⟨b, old, rfl, hold, hj', htime'⟩
      have hba : b ≠ a := by
        intro hba
        subst hba
        exact hjt (hj'.symm.trans (hp.own old hold))
      exact ⟨b, old, rfl, by rw [hp.items, if_neg hba, hold], hj', htime'⟩

theorem Sound.removed (hs : t.Sound) (hl : t.Linked) (ha : t.timers.lookup tid = some (some a))
    (hr : Removed t t' tid a) : t'.Sound := by
  intro j q hj
  have hl' := hl.removed ha hr
  have hold := hj
  rw [hr.timers] at hold
  by_cases hjt : j = tid
  · rw [if_pos hjt] at hold
    exact absurd hold (by simp)
  · rw [if_neg hjt] at hold
    rcases hs j q hold with ⟨b, item, rfl, hitem, _, htime⟩
    rcases hl'.item j b hj with ⟨item', hitem', htid'⟩
    -- the item is still the same one
    have hsame : item' = item := by
      rw [hr.items] at hitem'
      by_cases hba : b = a
      · rw [if_pos hba] at hitem'
        exact absurd hitem' (by simp)
      · rw [if_neg hba, hitem] at hitem'
        exact (Option.some.inj hitem').symm
    subst hsame
    exact ⟨b, item', rfl, hitem', htid', htime⟩

theorem Sound.no_null (hs : t.Sound) (j : Int32) : t.timers.lookup j ≠ some none := by
  intro hj
  rcases hs j none hj with ⟨a, _, ha, _⟩
  exact absurd ha (by simp)

/-- Both loops go through entries that are in the table. -/
def Stored (t : TimerLinux κ) (es : List TimerEntry) : Prop :=
  ∀ e ∈ es, t.timers.lookup e.1 = some e.2

theorem stored_arrange (t : TimerLinux κ) (order : Order TimerEntry) :
    t.Stored (order.arrange t.timers.entries) := by
  intro e he
  exact AList.mem_lookup_iff.mpr ((order.perm _).mem_iff.mp he)

/-- No null entry comes before the entry of the id. -/
def NoNullBefore (tid : Int32) (es : List TimerEntry) : Prop :=
  ∀ e ∈ es.takeWhile (·.1 ≠ tid), e.2 ≠ none

instance (tid : Int32) (es : List TimerEntry) : Decidable (NoNullBefore tid es) := by
  unfold NoNullBefore
  infer_instance

/-- The loop of `kill` either comes to a null entry first or removes the entry of its id. -/
theorem killLoop_cases (h : t.Linked) (ha : t.timers.lookup tid = some (some a))
    {es : List TimerEntry} (hs : t.Stored es) (hmem : ⟨tid, some a⟩ ∈ es) :
    (t.killLoop a tid es = .error .undefined ∧ (∃ j, t.timers.lookup j = some none) ∧
        ¬ NoNullBefore tid es) ∨
      ∃ t', t.killLoop a tid es = .ok t' ∧ Removed t t' tid a ∧ NoNullBefore tid es := by
  induction es with
  | nil => exact absurd hmem List.not_mem_nil
  | cons e es ih =>
      rcases e with ⟨key, p⟩
      have hentry : t.timers.lookup key = some p := hs _ List.mem_cons_self
      unfold NoNullBefore
      cases p with
      | none =>
          have hkey : key ≠ tid := by
            intro hkt
            rw [hkt, ha] at hentry
            exact absurd hentry (by simp)
          refine Or.inl ⟨rfl, ⟨key, hentry⟩, fun hno => ?_⟩
          rw [List.takeWhile_cons_of_pos (by simpa using hkey)] at hno
          exact hno _ List.mem_cons_self rfl
      | some b =>
          rcases h.deref hentry with ⟨timer, hderef, hitem, hkey⟩
          by_cases htid : timer.tid = tid
          · -- the item with the id is the one that was looked up
            have hkt : key = tid := hkey.symm.trans htid
            rw [hkt, ha] at hentry
            have hab : a = b := Option.some.inj (Option.some.inj hentry)
            subst hab
            have hgone : Removed t ((t.write a { timer with timeout := none }).drop tid a) tid a :=
              (removed_drop _ tid a).of_write
            refine Or.inr ⟨_, ?_, hgone, ?_⟩
            · simp [killLoop, hderef, htid, hkt, bind, Except.bind, pure, Except.pure]
            · rw [List.takeWhile_cons_of_neg (by simpa using hkt)]
              exact List.forall_mem_nil _
          · have hkt : key ≠ tid := fun hkt => htid (hkey.trans hkt)
            have hrest : (⟨tid, some a⟩ : TimerEntry) ∈ es := by
              rcases List.mem_cons.mp hmem with heq | hrest
              · injection heq with hkt'
                exact absurd hkt'.symm hkt
              · exact hrest
            have hloop : t.killLoop a tid (⟨key, some b⟩ :: es) = t.killLoop a tid es := by
              simp [killLoop, hderef, htid, bind, Except.bind]
            rw [hloop, List.takeWhile_cons_of_pos (by simpa using hkt), List.forall_mem_cons,
              and_iff_right (Option.some_ne_none b)]
            exact ih (fun e he => hs e (List.mem_cons_of_mem _ he)) hrest

theorem not_neg (hpos : 0 ≤ tid) : ¬ tid < 0 := by
  intro hlt
  rw [Int32.lt_iff_toInt_lt] at hlt
  rw [Int32.le_iff_toInt_le] at hpos
  omega

/--
**What `kill` does to the table.**

An id that is not there gets a null entry. Otherwise the entry and its item are
removed, unless the loop comes to a null entry before.
-/
theorem kill_cases (h : t.Linked) (hpos : 0 ≤ tid) (order : Order TimerEntry) :
    (t.timers.lookup tid = none ∧
        t.kill tid order = .ok { t with timers := t.timers.insert tid none }) ∨
      (t.timers.lookup tid = some none ∧ t.kill tid order = .ok t) ∨
      ∃ a, t.timers.lookup tid = some (some a) ∧
        ((t.kill tid order = .error .undefined ∧ (∃ j, t.timers.lookup j = some none) ∧
            ¬ NoNullBefore tid (order.arrange t.timers.entries)) ∨
          ∃ t', t.kill tid order = .ok t' ∧ Removed t t' tid a ∧
            NoNullBefore tid (order.arrange t.timers.entries)) := by
  unfold kill
  rw [if_neg (not_neg hpos)]
  cases hl : t.timers.lookup tid with
  | none => exact Or.inl ⟨rfl, by simp [index, hl]⟩
  | some p =>
      cases p with
      | none => exact Or.inr (Or.inl ⟨rfl, by simp [index, hl]⟩)
      | some a =>
          refine Or.inr (Or.inr ⟨a, rfl, ?_⟩)
          have hindex : t.index tid = (t, some a) := by simp [index, hl]
          rw [hindex]
          refine killLoop_cases h hl (stored_arrange t order) ?_
          exact (order.perm _).mem_iff.mpr (AList.mem_lookup_iff.mp hl)

/-- `destroy` removes the entries of the list, unless it comes to a null one. -/
theorem destroyLoop_cases {es : List TimerEntry} (h : t.Linked) (hs : t.Stored es)
    (hnodup : es.NodupKeys) :
    (t.destroyLoop es = .error .undefined ∧ ∃ e ∈ es, e.2 = none) ∨
      ∃ t', t.destroyLoop es = .ok t' ∧ t'.Linked ∧ t'.processor = t.processor ∧
        t'.onTimer = t.onTimer ∧
        (∀ j, t'.timers.lookup j = if j ∈ es.keys then none else t.timers.lookup j) ∧
        (∀ b item, t'.items.lookup b = some item → t.items.lookup b = some item) ∧
        ∀ e ∈ es, e.2 ≠ none := by
  induction es generalizing t with
  | nil =>
      exact Or.inr ⟨t, rfl, h, rfl, rfl, by simp, fun _ _ hb => hb, List.forall_mem_nil _⟩
  | cons e es ih =>
      rcases e with ⟨key, p⟩
      have hentry : t.timers.lookup key = some p := hs _ List.mem_cons_self
      rcases List.nodupKeys_cons.mp hnodup with ⟨hout, hrest⟩
      cases p with
      | none => exact Or.inl ⟨rfl, _, List.mem_cons_self, rfl⟩
      | some a =>
          rcases h.deref hentry with ⟨item, hderef, _⟩
          have hr := removed_drop t key a
          have hloop : t.destroyLoop (⟨key, some a⟩ :: es) = (t.drop key a).destroyLoop es := by
            simp [destroyLoop, hderef, bind, Except.bind]
          have hs' : (t.drop key a).Stored es := by
            intro e he
            have hne : e.1 ≠ key := by
              intro hek
              have hkeys : e.1 ∈ es.keys := List.mem_keys_of_mem he
              exact hout (hek ▸ hkeys)
            rw [hr.timers, if_neg hne]
            exact hs e (List.mem_cons_of_mem _ he)
          rw [hloop]
          rcases ih (h.removed hentry hr) hs' hrest with ⟨herr, e, he, hnull⟩ |
            ⟨t', hok, hlinked, hproc, hon, htimers, hitems, hnone⟩
          · exact Or.inl ⟨herr, e, List.mem_cons_of_mem _ he, hnull⟩
          · refine Or.inr ⟨t', hok, hlinked, hproc, hon, fun j => ?_, fun b item hb => ?_,
              List.forall_mem_cons.mpr ⟨Option.some_ne_none a, hnone⟩⟩
            · rw [htimers, hr.timers]
              by_cases hj : j = key
              · simp [hj, List.keys_cons]
              · simp [hj, List.keys_cons]
            · have hold := hitems b item hb
              rw [hr.items] at hold
              by_cases hba : b = a
              · simp [hba] at hold
              · rwa [if_neg hba] at hold

/-- `destroy` empties the table, unless there is a null entry. -/
theorem destroy_cases (h : t.Linked) (order : Order TimerEntry) :
    (t.destroy order = .error .undefined ∧ ∃ j, t.timers.lookup j = some none) ∨
      ∃ t', t.destroy order = .ok t' ∧ t'.Linked ∧ t'.processor = t.processor ∧
        t'.onTimer = t.onTimer ∧ (∀ j, t'.timers.lookup j = none) ∧
        (∀ b item, t'.items.lookup b = some item → t.items.lookup b = some item) ∧
        ∀ j, t.timers.lookup j ≠ some none := by
  have hperm := order.perm t.timers.entries
  have hs := stored_arrange t order
  have hnodup : (order.arrange t.timers.entries).NodupKeys :=
    (List.perm_nodupKeys hperm).mpr t.timers.nodupKeys
  rcases destroyLoop_cases h hs hnodup with ⟨herr, e, he, hnull⟩ |
    ⟨t', hok, hlinked, hproc, hon, htimers, hitems, hnone⟩
  · exact Or.inl ⟨herr, e.1, hnull ▸ hs e he⟩
  · refine Or.inr ⟨t', hok, hlinked, hproc, hon, fun j => ?_, hitems, fun j hj => ?_⟩
    · rw [htimers]
      split
      · rfl
      · rename_i hj
        refine AList.lookup_eq_none.mpr fun hm => hj ?_
        exact ((hperm.map Sigma.fst).mem_iff).mpr (AList.mem_keys.mp hm)
    · exact hnone ⟨j, none⟩ (hperm.mem_iff.mpr (AList.mem_lookup_iff.mp hj)) rfl

end TimerLinux

/-! ## Runs -/

/-- A timer object, the `start`s made so far, the last one first, and whether it has failed. -/
structure Timing (κ : Type) where
  timer : TimerLinux κ
  started : List (Int32 × κ)
  halted : Bool

namespace Timing

/-- What happens to a timer object. -/
inductive Act (κ : Type) where
  | start (tid tms : Int32) (func : κ) (alloc : Allocator) (add : Int32)
  | kill (tid : Int32) (order : Order TimerEntry)
  /-- The event of the item at the address is due. -/
  | expire (item : Nat) (answer : κ → Int32 → UInt32 → Bool) (order : Order TimerEntry)
  | destroy (order : Order TimerEntry)

variable {κ : Type}

/-- A timer object that has been created with the processor. -/
def init (κ : Type) (processor : Nat) : Timing κ where
  timer := (TimerLinux.init.create (some processor)).1
  started := []
  halted := false

/-- The state after a call, which stays as it was if the call fails. -/
def after (s : Timing κ) : Except Fault (TimerLinux κ) → Timing κ
  | .ok timer => { s with timer }
  | .error _ => { s with halted := true }

/-- The item at the address, if its event is scheduled. -/
def due (s : Timing κ) (a : Nat) : Option TimerItem :=
  (s.timer.items.lookup a).filter fun item => item.timeout.isSome

/-- The event of the item has fired, and its callback is yet to be called. -/
def fired (s : Timing κ) (a : Nat) (item : TimerItem) : Timing κ :=
  { s with timer := s.timer.write a item.persist }

def perform (s : Timing κ) : Act κ → Timing κ
  | .start tid tms func alloc add =>
      let started := if tid < 0 then s.started else (tid, func) :: s.started
      { s with started }.after ((s.timer.start tid tms func alloc add).map Prod.fst)
  | .kill tid order => s.after (s.timer.kill tid order)
  | .expire a answer order =>
      match s.due a with
      | none => s
      | some item =>
          let s := s.fired a item
          s.after (s.timer.timerCb (some a) answer order).2
  | .destroy order => s.after (s.timer.destroy order)

def step (s : Timing κ) (act : Act κ) : Timing κ := if s.halted then s else s.perform act

/-- The table is linked, and the callback is that of the last `start`. -/
structure Inv (s : Timing κ) : Prop where
  linked : s.timer.Linked
  processor : s.timer.processor.isSome = true
  last : s.timer.onTimer = s.started.head?.map Prod.snd
  logged : ∀ a item, s.timer.items.lookup a = some item →
    (s.started.lookup item.tid).isSome = true

theorem inv_init (κ : Type) (processor : Nat) : (init κ processor).Inv where
  linked := TimerLinux.linked_create _
  processor := rfl
  last := rfl
  logged := by
    intro a item h
    exact absurd h (by simp [init, TimerLinux.create, TimerLinux.init])

variable {s : Timing κ}

/-- A failed call changes nothing that the invariant speaks of. -/
theorem inv_after {r : Except Fault (TimerLinux κ)} (hi : s.Inv)
    (hok : ∀ t, r = .ok t → Inv { s with timer := t }) : (s.after r).Inv := by
  cases r with
  | ok t => exact hok t rfl
  | error e => exact ⟨hi.linked, hi.processor, hi.last, hi.logged⟩

theorem inv_start (hi : s.Inv) {tid : Int32} (hpos : 0 ≤ tid) (tms : Int32) (func : κ)
    (alloc : Allocator) (add : Int32) :
    Inv ({ s with started := (tid, func) :: s.started }.after
      ((s.timer.start tid tms func alloc add).map Prod.fst)) := by
  rcases TimerLinux.start_spec hi.linked hi.processor hpos tms func alloc add with
    ⟨t', a, hok, hon, hp⟩
  rw [hok]
  refine ⟨hi.linked.placed hp rfl hpos, ?_, hon, ?_⟩
  · show t'.processor.isSome = true
    rw [hp.processor]
    exact hi.processor
  · intro b item hb
    have hb : t'.items.lookup b = some item := hb
    rw [hp.items] at hb
    show (((tid, func) :: s.started).lookup item.tid).isSome = true
    rw [List.lookup_cons]
    split
    · rfl
    · rename_i hne
      by_cases hba : b = a
      · rw [if_pos hba] at hb
        cases hb
        exact absurd hne (by simp)
      · rw [if_neg hba] at hb
        exact hi.logged b item hb

theorem inv_kill (hi : s.Inv) (tid : Int32) (order : Order TimerEntry) :
    (s.after (s.timer.kill tid order)).Inv := by
  by_cases hneg : tid < 0
  · rw [TimerLinux.kill, if_pos hneg]
    exact hi
  · have hpos : 0 ≤ tid := Int32.not_lt.mp hneg
    rcases TimerLinux.kill_cases hi.linked hpos order with ⟨hnone, hok⟩ | ⟨_, hok⟩ |
      ⟨a, ha, ⟨herr, _⟩ | ⟨t', hok, hr, _⟩⟩
    · rw [hok]
      refine ⟨⟨?_, ?_⟩, hi.processor, hi.last, hi.logged⟩
      · intro j b hj
        rcases lookup_insert_eq_some.mp hj with ⟨_, hnull⟩ | ⟨_, hj⟩
        · exact absurd hnull (by simp)
        · exact hi.linked.item j b hj
      · intro b item hb
        rcases hi.linked.entry b item hb with ⟨hentry, hpos'⟩
        have hne : item.tid ≠ tid := ne_of_lookup hnone hentry
        exact ⟨lookup_insert_eq_some.mpr (Or.inr ⟨hne, hentry⟩), hpos'⟩
    · rw [hok]
      exact hi
    · rw [herr]
      exact ⟨hi.linked, hi.processor, hi.last, hi.logged⟩
    · rw [hok]
      refine ⟨hi.linked.removed ha hr, hr.processor ▸ hi.processor, hr.onTimer.trans hi.last, ?_⟩
      intro b item hb
      have hb : t'.items.lookup b = some item := hb
      rw [hr.items] at hb
      by_cases hba : b = a
      · rw [if_pos hba] at hb
        exact absurd hb (by simp)
      · rw [if_neg hba] at hb
        exact hi.logged b item hb

theorem inv_destroy (hi : s.Inv) (order : Order TimerEntry) :
    (s.after (s.timer.destroy order)).Inv := by
  refine inv_after hi fun t hok => ?_
  rcases TimerLinux.destroy_cases hi.linked order with ⟨herr, _⟩ |
    ⟨t', hok', hlinked, hproc, hon, _, hitems, _⟩
  · rw [herr] at hok
    exact absurd hok (by simp)
  · rw [hok'] at hok
    cases hok
    exact ⟨hlinked, hproc ▸ hi.processor, hon.trans hi.last,
      fun a item ha => hi.logged a item (hitems a item ha)⟩

theorem start_neg {tid : Int32} (hneg : tid < 0) (t : TimerLinux κ) (tms : Int32) (func : κ)
    (alloc : Allocator) (add : Int32) : t.start tid tms func alloc add = .ok (t, -1) := by
  unfold TimerLinux.start
  rw [if_pos hneg]
  rfl

theorem inv_fired (hi : s.Inv) {a : Nat} {item : TimerItem}
    (ha : s.timer.items.lookup a = some item) : (s.fired a item).Inv := by
  rcases hi.linked.entry a item ha with ⟨hentry, hpos⟩
  have hp := TimerLinux.placed_own hi.linked hentry item.persist
  refine ⟨hi.linked.placed hp rfl hpos, hi.processor, hi.last, ?_⟩
  intro b found hb
  have hb : (s.timer.write a item.persist).items.lookup b = some found := hb
  rw [hp.items] at hb
  by_cases hba : b = a
  · rw [if_pos hba] at hb
    cases hb
    exact hi.logged a item ha
  · rw [if_neg hba] at hb
    exact hi.logged b found hb

theorem fired_items (s : Timing κ) (a : Nat) (item : TimerItem) :
    (s.fired a item).timer.items.lookup a = some item.persist := AList.lookup_insert _

theorem due_eq_some {a : Nat} {item : TimerItem} :
    s.due a = some item ↔ s.timer.items.lookup a = some item ∧ item.timeout.isSome = true := by
  simp [due, Option.filter_eq_some_iff]

/-- The callback of a timer that is due is called; there is one, since it was started. -/
theorem timerCb_eq (hi : s.Inv) {a : Nat} {item : TimerItem}
    (ha : s.timer.items.lookup a = some item) (answer : κ → Int32 → UInt32 → Bool)
    (order : Order TimerEntry) :
    ∃ f, s.started.head?.map Prod.snd = some f ∧
      s.timer.timerCb (some a) answer order = ([(f, item.tid, 0)],
        if answer f item.tid 0 then .ok s.timer else s.timer.kill item.tid order) := by
  cases hst : s.started with
  | nil =>
      have := hi.logged a item ha
      rw [hst] at this
      exact absurd this (by simp)
  | cons x xs =>
      have hon : s.timer.onTimer = some x.2 := by rw [hi.last, hst]; rfl
      refine ⟨x.2, rfl, ?_⟩
      simp [TimerLinux.timerCb, TimerLinux.deref, ha, hon]

theorem inv_perform (hi : s.Inv) (act : Act κ) : (s.perform act).Inv := by
  cases act with
  | start tid tms func alloc add =>
      by_cases hneg : tid < 0
      · simp only [perform, start_neg hneg, if_pos hneg]
        exact hi
      · simp only [perform, if_neg hneg]
        exact inv_start hi (Int32.not_lt.mp hneg) tms func alloc add
  | kill tid order => exact inv_kill hi tid order
  | expire a answer order =>
      cases hd : s.due a with
      | none =>
          simp only [perform, hd]
          exact hi
      | some item =>
          have hi' := inv_fired hi (due_eq_some.mp hd).1
          rcases timerCb_eq hi' (fired_items s a item) answer order with ⟨f, _, hcb⟩
          simp only [perform, hd, hcb]
          split
          · exact hi'
          · exact inv_kill hi' item.tid order
  | destroy order => exact inv_destroy hi order

theorem inv_step (s : Timing κ) (act : Act κ) (hi : s.Inv) : (s.step act).Inv := by
  unfold step
  split
  · exact hi
  · exact inv_perform hi act

/-! ## The table stays sound -/

/-- Nothing has failed, and each entry is a scheduled item with its id. -/
def Sound (s : Timing κ) : Prop := s.halted = false ∧ s.timer.Sound

/-- `kill` removes the entry of its id and no other, `destroy` all; neither fails. -/
def Exact (s : Timing κ) : Act κ → Prop
  | .kill tid order => 0 ≤ tid → ∃ t, s.timer.kill tid order = .ok t ∧
      ∀ j, t.timers.lookup j = if j = tid then none else s.timer.timers.lookup j
  | .destroy order => ∃ t, s.timer.destroy order = .ok t ∧ ∀ j, t.timers.lookup j = none
  | _ => True

/--
The id that is killed is in the table, the event that is started gets scheduled, and one
whose time is zero fires only if its callback ends it.
-/
def Known (s : Timing κ) : Act κ → Prop
  | .start tid _ _ _ add => 0 ≤ tid → add = 0
  | .kill tid _ => 0 ≤ tid → tid ∈ s.timer.timers
  | .expire a answer _ => ∀ item f, s.due a = some item → s.timer.onTimer = some f →
      item.timeout = some ⟨0, 0⟩ → answer f item.tid 0 = false
  | .destroy _ => True

theorem sound_init (κ : Type) (processor : Nat) : (init κ processor).Sound := by
  refine ⟨rfl, fun tid p h => ?_⟩
  exact absurd h (by simp [init, TimerLinux.create, TimerLinux.init])

/-- In a sound table, `kill` of an id that is there removes it. -/
theorem kill_sound (hi : s.Inv) (hs : s.timer.Sound) {tid : Int32} (hpos : 0 ≤ tid)
    (hmem : tid ∈ s.timer.timers) (order : Order TimerEntry) :
    ∃ t, s.timer.kill tid order = .ok t ∧ t.Sound ∧
      ∀ j, t.timers.lookup j = if j = tid then none else s.timer.timers.lookup j := by
  rcases TimerLinux.kill_cases hi.linked hpos order with ⟨hnone, _⟩ | ⟨hnull, _⟩ |
    ⟨a, ha, ⟨_, ⟨j, hj⟩, _⟩ | ⟨t, hok, hr, _⟩⟩
  · exact absurd hmem (AList.lookup_eq_none.mp hnone)
  · exact absurd hnull (hs.no_null tid)
  · exact absurd hj (hs.no_null j)
  · exact ⟨t, hok, hs.removed hi.linked ha hr, hr.timers⟩

theorem destroy_sound (hi : s.Inv) (hs : s.timer.Sound) (order : Order TimerEntry) :
    ∃ t, s.timer.destroy order = .ok t ∧ ∀ j, t.timers.lookup j = none := by
  rcases TimerLinux.destroy_cases hi.linked order with ⟨_, j, hj⟩ | ⟨t, hok, _, _, _, hnone, _⟩
  · exact absurd hj (hs.no_null j)
  · exact ⟨t, hok, hnone⟩

/-- An id that is not there leaves a null entry behind. -/
theorem not_sound_kill (hi : s.Inv) {tid : Int32} (hpos : 0 ≤ tid) (hmem : tid ∉ s.timer.timers)
    (order : Order TimerEntry) : ¬ (s.after (s.timer.kill tid order)).Sound := by
  intro hs
  have hnone := AList.lookup_eq_none.mpr hmem
  rcases TimerLinux.kill_cases hi.linked hpos order with ⟨_, hok⟩ | ⟨hnull, _⟩ | ⟨a, ha, _⟩
  · rw [hok] at hs
    exact hs.2.no_null tid (AList.lookup_insert _)
  · rw [hnone] at hnull
    exact absurd hnull (by simp)
  · rw [hnone] at ha
    exact absurd ha (by simp)

/-- `start` keeps a sound state sound exactly if its event gets scheduled. -/
theorem sound_start_iff (hi : s.Inv) (hs : s.Sound) (tid tms : Int32) (func : κ)
    (alloc : Allocator) (add : Int32) :
    (s.perform (.start tid tms func alloc add)).Sound ↔ (0 ≤ tid → add = 0) := by
  by_cases hneg : tid < 0
  · simp only [perform, start_neg hneg, if_pos hneg]
    exact ⟨fun _ hpos => absurd hneg (TimerLinux.not_neg hpos), fun _ => hs⟩
  · have hpos : 0 ≤ tid := Int32.not_lt.mp hneg
    rcases TimerLinux.start_spec hi.linked hi.processor hpos tms func alloc add with
      ⟨t', a, hok, _, hp⟩
    simp only [perform, if_neg hneg, hok]
    have hiff := TimerLinux.sound_placed_iff hs.2 hp rfl
    constructor
    · intro hs' _
      by_contra hadd
      have := hiff.mp hs'.2
      rw [if_neg hadd] at this
      exact absurd this (by simp)
    · intro hadd
      refine ⟨hs.1, hiff.mpr ?_⟩
      rw [if_pos (hadd hpos)]
      rfl

/-- `kill` does so exactly if its id is in the table. -/
theorem sound_kill_iff (hi : s.Inv) (hs : s.Sound) (tid : Int32) (order : Order TimerEntry) :
    (s.perform (.kill tid order)).Sound ↔ (0 ≤ tid → tid ∈ s.timer.timers) := by
  constructor
  · intro hs' hpos
    by_contra hmem
    exact not_sound_kill hi hpos hmem order hs'
  · intro hknown
    by_cases hneg : tid < 0
    · have hok : s.timer.kill tid order = .ok s.timer := if_pos hneg
      simp only [perform, hok]
      exact hs
    · have hpos : 0 ≤ tid := Int32.not_lt.mp hneg
      rcases kill_sound hi hs.2 hpos (hknown hpos) order with ⟨t, hok, hs', _⟩
      simp only [perform, hok]
      exact ⟨hs.1, hs'⟩

theorem persist_isSome_iff {item : TimerItem} (h : item.timeout.isSome = true) :
    item.persist.timeout.isSome = true ↔ item.timeout ≠ some ⟨0, 0⟩ := by
  rcases Option.isSome_iff_exists.mp h with ⟨tv, htv⟩
  simp [TimerItem.persist, htv, Option.filter_some]

/--
A timer that is due is in the table, so it may be killed; if it is not, it must have been
scheduled anew.
-/
theorem sound_expire_iff (hi : s.Inv) (hs : s.Sound) (a : Nat)
    (answer : κ → Int32 → UInt32 → Bool) (order : Order TimerEntry) :
    (s.perform (.expire a answer order)).Sound ↔ s.Known (.expire a answer order) := by
  unfold Known
  cases hd : s.due a with
  | none =>
      simp only [perform, hd]
      exact iff_of_true hs fun item f h => nomatch h
  | some item =>
      rcases due_eq_some.mp hd with ⟨hitem, htime⟩
      rcases hi.linked.entry a item hitem with ⟨hentry, hpos⟩
      have hi' := inv_fired hi hitem
      rcases timerCb_eq hi' (fired_items s a item) answer order with ⟨f, hf, hcb⟩
      have hon : s.timer.onTimer = some f := hi.last.trans hf
      simp only [perform, hd, hcb, Option.some.injEq, hon]
      by_cases hanswer : answer f item.tid 0 = true
      · have hstays := TimerLinux.sound_placed_iff hs.2
          (TimerLinux.placed_own hi.linked hentry item.persist) rfl
        rw [if_pos (show answer f item.persist.tid 0 = true from hanswer)]
        constructor
        · rintro hsound _ _ rfl rfl hzero
          exact absurd hzero ((persist_isSome_iff htime).mp (hstays.mp hsound.2))
        · intro hknown
          refine ⟨hs.1, hstays.mpr ((persist_isSome_iff htime).mpr fun hzero => ?_)⟩
          rw [hknown item f rfl rfl hzero] at hanswer
          exact Bool.false_ne_true hanswer
      · have hfalse : answer f item.tid 0 = false := by simpa using hanswer
        rw [if_neg (show ¬answer f item.persist.tid 0 = true from hanswer)]
        refine iff_of_true ?_ ?_
        · -- it is taken out, scheduled or not
          have hentry' : (s.fired a item).timer.timers.lookup item.tid = some (some a) := hentry
          rcases @TimerLinux.kill_cases _ _ item.tid hi'.linked hpos order with ⟨hnone, _⟩ |
            ⟨hnull, _⟩ | ⟨b, hb, ⟨_, ⟨j, hj⟩, _⟩ | ⟨t, hok, hr, _⟩⟩
          · rw [hentry'] at hnone
            exact nomatch hnone
          · rw [hentry'] at hnull
            exact nomatch hnull
          · exact absurd hj (hs.2.no_null j)
          · obtain rfl : a = b := Option.some.inj (Option.some.inj (hentry'.symm.trans hb))
            have hkill : (s.fired a item).timer.kill item.persist.tid order = .ok t := hok
            rw [hkill]
            exact ⟨hs.1, hs.2.removed hi.linked hentry hr.of_write⟩
        · rintro _ _ rfl rfl _
          exact hfalse

theorem sound_destroy (hi : s.Inv) (hs : s.Sound) (order : Order TimerEntry) :
    (s.perform (.destroy order)).Sound := by
  rcases destroy_sound hi hs.2 order with ⟨t, hok, hnone⟩
  simp only [perform, hok]
  refine ⟨hs.1, ?_⟩
  intro j p hj
  exact absurd ((hnone j).symm.trans hj) (by simp)

/-- **One step.** -/
theorem sound_step_iff (s : Timing κ) (act : Act κ) (hi : s.Inv) (hs : s.Sound) :
    (s.step act).Sound ↔ s.Known act := by
  have hstep : s.step act = s.perform act := by simp [step, hs.1]
  rw [hstep]
  cases act with
  | start tid tms func alloc add => exact sound_start_iff hi hs tid tms func alloc add
  | kill tid order => exact sound_kill_iff hi hs tid order
  | expire a answer order => exact sound_expire_iff hi hs a answer order
  | destroy order => exact iff_of_true (sound_destroy hi hs order) trivial

/-- From a sound state, a step with a known id does exactly what it is to do. -/
theorem exact_of_known (hi : s.Inv) (hs : s.Sound) {act : Act κ} (hk : s.Known act) :
    s.Exact act := by
  cases act with
  | start => trivial
  | kill tid order =>
      intro hpos
      rcases kill_sound hi hs.2 hpos (hk hpos) order with ⟨t, hok, _, hlookup⟩
      exact ⟨t, hok, hlookup⟩
  | expire => trivial
  | destroy order => exact destroy_sound hi hs.2 order

/--
**The table stays sound exactly as long as only known ids are killed.**

For every run: in every state each entry is a scheduled item with its id, and `kill`
and `destroy` remove what they are to remove without touching a null item, if and
only if each `kill` is of an id that is in the table, each `event_add` succeeds, and no
timer of zero milliseconds fires whose callback lets it go on.
-/
theorem table_sound_iff (processor : Nat) (acts : List (Act κ)) :
    AllStates step Sound (init κ processor) acts ∧ AllSteps step Exact (init κ processor) acts ↔
      AllSteps step Known (init κ processor) acts := by
  have hstep : ∀ (s : Timing κ) act, s.Inv → s.Sound →
      (s.Exact act ∧ (s.step act).Sound ↔ s.Known act) := by
    intro s act hi hs
    constructor
    · intro h
      exact (sound_step_iff s act hi hs).mp h.2
    · intro hk
      exact ⟨exact_of_known hi hs hk, (sound_step_iff s act hi hs).mpr hk⟩
  exact and_comm.trans (allSteps_and_allStates_iff (inv_init κ processor)
    (sound_init κ processor) inv_step hstep acts)

/-- Killing an id that was never started spoils the table for the next `kill`. -/
theorem not_sound_unknown_kill :
    ¬ AllStates step Sound (init Unit 0)
        [.start 3 1000 () .above 0, .kill 5 (.stored _), .kill 3 (.stored _)] ∧
      (List.foldl step (init Unit 0)
        [.start 3 1000 () .above 0, .kill 5 (.stored _), .kill 3 (.stored _)]).halted = true := by
  refine ⟨?_, by decide⟩
  intro h
  -- the state in the end
  have hend : Sound _ := h.2.2.2
  exact absurd hend.1 (by decide)

/-! ## Each timer its own callback -/

/-- A timer that is due calls the function of its own last `start`, which decides on its kill. -/
def Calls (s : Timing κ) : Act κ → Prop
  | .expire a answer order => s.halted = false → ∀ item, s.due a = some item →
      let timer := (s.fired a item).timer
      ∃ f, s.started.lookup item.tid = some f ∧
        timer.timerCb (some a) answer order = ([(f, item.tid, 0)],
          if answer f item.tid 0 then .ok timer else timer.kill item.tid order)
  | _ => True

/-- The last `start` of all was given the function that the timer which is due was given. -/
def Latest (s : Timing κ) : Act κ → Prop
  | .expire a _ _ => s.halted = false → ∀ item, s.due a = some item →
      s.started.head?.map Prod.snd = s.started.lookup item.tid
  | _ => True

theorem calls_iff_latest (s : Timing κ) (act : Act κ) (hi : s.Inv) :
    s.Calls act ↔ s.Latest act := by
  cases act with
  | expire a answer order =>
      refine forall_congr' fun _ => forall_congr' fun item => forall_congr' fun hd => ?_
      have hi' := inv_fired hi (due_eq_some.mp hd).1
      rcases timerCb_eq hi' (fired_items s a item) answer order with ⟨f, hf, hcb⟩
      have hf : s.started.head?.map Prod.snd = some f := hf
      rw [hf]
      constructor
      · intro h
        rcases h with ⟨g, hg, hcalls⟩
        rw [hcb] at hcalls
        injection hcalls with hlist _
        injection hlist with hfg _
        injection hfg with hfg _
        rw [hg, hfg]
      · intro h
        exact ⟨f, h.symm, hcb⟩
  | start => exact Iff.rfl
  | kill => exact Iff.rfl
  | destroy => exact Iff.rfl

/--
**A timer calls its own function exactly when that is also the last one given to any.**

For every run over any ids: each timer that is due calls the function of its own
last `start`, and its answer decides on the kill, if and only if that function is
also the one of the last `start` of all.
-/
theorem own_callback_iff (processor : Nat) (acts : List (Act κ)) :
    AllSteps step Calls (init κ processor) acts ↔ AllSteps step Latest (init κ processor) acts :=
  allSteps_congr (inv_init κ processor) inv_step calls_iff_latest acts

/-- Two timers with different functions: the first one calls the function of the second. -/
theorem not_calls_two_timers :
    ¬ AllSteps step Calls (init Bool 0)
      [.start 1 1000 true .above 0, .start 2 2000 false .above 0,
        .expire 0 (fun _ _ _ => true) (.stored _)] := by
  intro h
  rcases h.2.2.1 rfl ⟨1000, 1, some ⟨1, 0⟩⟩ (by decide) with ⟨f, hf, hcalls⟩
  have hf : some true = some f := hf
  cases hf
  exact absurd (congrArg Prod.fst hcalls) (by decide)

end Timing

end NanomsgDemo.Net

import NanomsgDemo.Net.TimerWin32

/-!
# Multimedia timers from the first to the last

The destructor of `TimerWin32` calls `timeKillEvent` with the user id of each item before it
deletes it. That is a kernel id only by chance, so what it finds is to have been asked for
already, or to have no timer in the kernel.

A run is of `start`, `start_once`, `kill` and timers that are due, and the destructor comes
at the end. A restarted timer loses its item, and an id of 0 leaves an entry behind that
the destructor goes through.
-/

namespace NanomsgDemo.Net

open Runs Recycling

namespace TimerWin32

variable {κ : Type} {t : TimerWin32 κ} {tid : Int32} {a : Nat} {item : MmTimerItem} {id : UInt32}

/-! ## The destructor -/

/--
What the destructor deletes: each entry has an item, which has no timer in the kernel, or
has been asked for, or its kernel id is the user id of the entry or of one before it.
-/
def Deletable (t : TimerWin32 κ) : List UInt32 → List TimerEntry → Prop
  | _, [] => True
  | ids, ⟨key, p⟩ :: rest =>
      (∃ a item, p = some a ∧ t.items.lookup a = some item ∧
        (item.event = none ∨ t.asked a = true ∨
          ∃ id ∈ key.toUInt32 :: ids, item.event = some id)) ∧
      t.Deletable (key.toUInt32 :: ids) rest

/-- The items of the entries are as they were in `t₀`, and asked for if `ids` have been since. -/
def Follows (t₀ t : TimerWin32 κ) (ids : List UInt32) (es : List TimerEntry) : Prop :=
  ∀ e ∈ es, ∀ a item, e.2 = some a → t₀.items.lookup a = some item →
    t.items.lookup a = some item ∧
      (t.asked a = true ↔ t₀.asked a = true ∨ ∃ id ∈ ids, item.event = some id)

/-- One pass of the destructor's loop. -/
def closed (t : TimerWin32 κ) (key : Int32) (a : Nat) (item : MmTimerItem) : TimerWin32 κ :=
  (t.timeKillEvent key.toUInt32).1.drop key a item

theorem destructLoop_cons (hitem : t.items.lookup a = some item) (htid : item.tid = tid)
    (es : List TimerEntry) :
    t.destructLoop (⟨tid, some a⟩ :: es) = (t.closed tid a item).destructLoop es := by
  simp [destructLoop, deref, hitem, htid, closed, bind, Except.bind]

theorem inv_closed (hi : t.Inv) (ha : t.timers.lookup tid = some (some a)) :
    (t.closed tid a item).Inv := inv_drop (inv_timeKillEvent hi _) ha

theorem kept_closed_iff (hi : t.Inv) (ha : t.timers.lookup tid = some (some a)) :
    (t.closed tid a item).Kept ↔ t.Kept :=
  (kept_drop_iff (inv_timeKillEvent hi _) ha).trans (kept_timeKillEvent_iff _)

theorem lookup_closed (j : Int32) : (t.closed tid a item).timers.lookup j =
    if j = tid then none else t.timers.lookup j := lookup_erase_eq t.timers tid j

theorem stored_closed {es : List TimerEntry} (hs : t.Stored es) (hout : tid ∉ es.keys) :
    (t.closed tid a item).Stored es := by
  intro e he
  have hne : e.1 ≠ tid := by
    intro het
    have hkeys : e.1 ∈ es.keys := List.mem_keys_of_mem he
    exact hout (het ▸ hkeys)
  rw [lookup_closed, if_neg hne]
  exact hs e he

/-- The loop of the destructor takes its entries out of the table, and nothing else. -/
theorem destructLoop_ok {es : List TimerEntry} (hi : t.Inv) (hs : t.Stored es)
    (hnodup : es.NodupKeys) {t' : TimerWin32 κ} (h : t.destructLoop es = .ok t') :
    (∀ j, t'.timers.lookup j = if j ∈ es.keys then none else t.timers.lookup j) ∧
      (t'.Kept ↔ t.Kept) ∧ (t'.premature = false → t.premature = false) := by
  induction es generalizing t with
  | nil =>
      obtain rfl := Except.ok.inj h
      exact ⟨fun j => by simp, Iff.rfl, id⟩
  | cons e es ih =>
      rcases e with ⟨key, p⟩
      have hentry : t.timers.lookup key = some p := hs _ List.mem_cons_self
      obtain ⟨hout, hrest⟩ := List.nodupKeys_cons.mp hnodup
      cases p with
      | none => exact nomatch h
      | some a =>
          obtain ⟨item, hitem, htid⟩ := hi.item key a hentry
          rw [destructLoop_cons hitem htid] at h
          have hs' : t.Stored es := fun e he => hs e (List.mem_cons_of_mem _ he)
          obtain ⟨hlook, hkept, hprem⟩ :=
            ih (inv_closed hi hentry) (stored_closed hs' hout) hrest h
          refine ⟨fun j => ?_, hkept.trans (kept_closed_iff hi hentry), fun h => ?_⟩
          · rw [hlook, lookup_closed]
            by_cases hj : j = key
            · simp [hj, List.keys_cons]
            · simp [hj, List.keys_cons]
          · have hclosed : (t.premature || _) = false := hprem h
            exact (Bool.or_eq_false_iff.mp hclosed).1

theorem asked_timeKillEvent_iff (hitem : t.items.lookup a = some item) (id : UInt32) :
    (t.timeKillEvent id).1.asked a = true ↔ t.asked a = true ∨ item.event = some id := by
  show (t.asked a || (t.items.lookup a).any fun i => i.event = some id) = true ↔ _
  rw [hitem, Option.any_some, Bool.or_eq_true, decide_eq_true_iff]

theorem askedSince_cons {p : Prop} {event : Option UInt32} {ids : List UInt32} :
    (p ∨ ∃ id ∈ ids, event = some id) ∨ event = some id ↔
      p ∨ ∃ id' ∈ id :: ids, event = some id' := by
  rw [List.exists_mem_cons_iff, or_assoc]
  exact or_congr_right or_comm

/-- The entries that are left follow the state that the destructor has found. -/
theorem follows_closed {t₀ : TimerWin32 κ} {ids : List UInt32} {e : TimerEntry}
    {es : List TimerEntry} (hi : t.Inv) (ha : t.timers.lookup tid = some (some a))
    (hs : t.Stored es) (hout : tid ∉ es.keys) (hf : Follows t₀ t ids (e :: es)) :
    Follows t₀ (t.closed tid a item) (tid.toUInt32 :: ids) es := by
  intro e' he' b found hb hfound₀
  obtain ⟨hfound, hasked⟩ := hf e' (List.mem_cons_of_mem _ he') b found hb hfound₀
  have hba : b ≠ a := by
    intro hba
    have hentry : t.timers.lookup e'.1 = some (some a) := (hs e' he').trans (by rw [hb, hba])
    have hkeys : e'.1 ∈ es.keys := List.mem_keys_of_mem he'
    exact hout (hi.inj ha hentry ▸ hkeys)
  refine ⟨?_, ?_⟩
  · show (t.items.erase a).lookup b = some found
    rw [lookup_erase_eq, if_neg hba]
    exact hfound
  · refine (asked_timeKillEvent_iff hfound tid.toUInt32).trans ?_
    rw [hasked]
    exact askedSince_cons

/-- The item of the first entry may be deleted if it may in the state that was found. -/
theorem mayDelete_iff {t₀ : TimerWin32 κ} {ids : List UInt32}
    (hitem : t.items.lookup a = some item) (hitem₀ : t₀.items.lookup a = some item)
    (hasked : t.asked a = true ↔ t₀.asked a = true ∨ ∃ id ∈ ids, item.event = some id)
    (key : Int32) :
    (item.event = none ∨ (t.timeKillEvent key.toUInt32).1.asked a = true) ↔
      ∃ b found, some a = some b ∧ t₀.items.lookup b = some found ∧
        (found.event = none ∨ t₀.asked b = true ∨
          ∃ id ∈ key.toUInt32 :: ids, found.event = some id) := by
  rw [asked_timeKillEvent_iff hitem, hasked, askedSince_cons]
  refine ⟨fun h => ⟨a, item, rfl, hitem₀, h⟩, ?_⟩
  rintro ⟨b, found, hb, hfound, h⟩
  obtain rfl := Option.some.inj hb
  obtain rfl : item = found := Option.some.inj (hitem₀.symm.trans hfound)
  exact h

/-- **The loop of the destructor** deletes nothing prematurely if everything is deletable. -/
theorem destructLoop_iff {t₀ : TimerWin32 κ} {ids : List UInt32} {es : List TimerEntry}
    (hi : t.Inv) (hsound : t.Sound) (hs : t.Stored es) (hnodup : es.NodupKeys)
    (hf : Follows t₀ t ids es)
    (hknown : ∀ e ∈ es, ∀ a, e.2 = some a → (t₀.items.lookup a).isSome = true) :
    (∃ t', t.destructLoop es = .ok t' ∧ t'.Sound) ↔ t₀.Deletable ids es := by
  induction es generalizing t ids with
  | nil => exact iff_of_true ⟨t, rfl, hsound⟩ trivial
  | cons e es ih =>
      rcases e with ⟨key, p⟩
      have hentry : t.timers.lookup key = some p := hs _ List.mem_cons_self
      obtain ⟨hout, hrest⟩ := List.nodupKeys_cons.mp hnodup
      have hs' : t.Stored es := fun e he => hs e (List.mem_cons_of_mem _ he)
      cases p with
      | none =>
          refine iff_of_false ?_ ?_
          · rintro ⟨t', h, _⟩
            exact nomatch h
          · rintro ⟨⟨a, _, ha, _⟩, _⟩
            exact nomatch ha
      | some a =>
          obtain ⟨item, hitem₀⟩ :=
            Option.isSome_iff_exists.mp (hknown _ List.mem_cons_self a rfl)
          obtain ⟨hitem, hasked⟩ := hf _ List.mem_cons_self a item rfl hitem₀
          obtain ⟨found, hfound, htid⟩ := hi.item key a hentry
          obtain rfl : item = found := Option.some.inj (hitem.symm.trans hfound)
          -- whether this item may be deleted
          have hmay := mayDelete_iff hitem hitem₀ hasked key
          have hpremature : (t.closed key a item).premature = false ↔
              item.event = none ∨ (t.timeKillEvent key.toUInt32).1.asked a = true :=
            premature_drop_iff (sound_timeKillEvent hsound _).deleted
          have hi' : (t.closed key a item).Inv := inv_closed hi hentry
          have hstored : (t.closed key a item).Stored es := stored_closed hs' hout
          -- and if it may, the others decide
          have hothers : (item.event = none ∨ (t.timeKillEvent key.toUInt32).1.asked a = true) →
              ((∃ t', (t.closed key a item).destructLoop es = .ok t' ∧ t'.Sound) ↔
                t₀.Deletable (key.toUInt32 :: ids) es) := by
            intro hfirst
            have hclosed : (t.closed key a item).Sound :=
              sound_drop (inv_timeKillEvent hi _) (sound_timeKillEvent hsound _) hitem hfirst
            exact ih hi' hclosed hstored hrest (follows_closed hi hentry hs' hout hf)
              fun e he => hknown e (List.mem_cons_of_mem _ he)
          rw [destructLoop_cons hitem htid, Deletable, ← hmay]
          constructor
          · rintro ⟨t', hok, hsound'⟩
            have hfirst := hpremature.mp
              ((destructLoop_ok hi' hstored hrest hok).2.2 hsound'.deleted)
            exact ⟨hfirst, (hothers hfirst).mp ⟨t', hok, hsound'⟩⟩
          · rintro ⟨hfirst, hrest'⟩
            exact (hothers hfirst).mpr hrest'

/-- Nothing is left: neither an item nor a timer of the kernel without one. -/
def Gone (t : TimerWin32 κ) : Prop := t.Sound ∧ ∀ a, t.items.lookup a = none

/-- What the destructor finds, in the order in which it goes through the table. -/
def AllDeletable (t : TimerWin32 κ) (order : Order TimerEntry) : Prop :=
  t.Deletable [] (order.arrange t.timers.entries)

theorem destruct_spec (hi : t.Inv) (order : Order TimerEntry) :
    ((∃ t', t.destruct order = .ok t' ∧ t'.Gone) → t.Kept) ∧
      (t.Proper → ((∃ t', t.destruct order = .ok t' ∧ t'.Gone) ↔ t.AllDeletable order)) := by
  have hperm := order.perm t.timers.entries
  have hnodup : (order.arrange t.timers.entries).NodupKeys :=
    (List.perm_nodupKeys hperm).mpr t.timers.nodupKeys
  -- the table is empty afterwards
  have hempty : ∀ t', t.destruct order = .ok t' → (∀ j, t'.timers.lookup j = none) ∧
      (t'.Kept ↔ t.Kept) := by
    intro t' h
    obtain ⟨hlook, hkept, _⟩ := destructLoop_ok hi (stored_arrange t order) hnodup h
    refine ⟨fun j => ?_, hkept⟩
    rw [hlook]
    split
    · rfl
    · rename_i hj
      refine AList.lookup_eq_none.mpr fun hm => hj ?_
      exact ((hperm.map Sigma.fst).mem_iff).mpr (AList.mem_keys.mp hm)
  constructor
  · rintro ⟨t', hok, _, hnone⟩
    obtain ⟨htable, hkept⟩ := hempty t' hok
    refine hkept.mp ⟨fun a item ha => ?_, fun h => ?_⟩
    · exact nomatch (hnone a).symm.trans ha
    · exact nomatch (htable 0).symm.trans h
  · intro hp
    have hknown : ∀ e ∈ order.arrange t.timers.entries, ∀ a, e.2 = some a →
        (t.items.lookup a).isSome = true := by
      intro e he a ha
      obtain ⟨item, hitem, _⟩ := hi.item e.1 a ((stored_arrange t order e he).trans (by rw [ha]))
      rw [hitem]
      rfl
    have hfollows : Follows t t [] (order.arrange t.timers.entries) :=
      fun _ _ _ _ _ hitem => ⟨hitem, by simp⟩
    refine Iff.trans ?_ (destructLoop_iff hi hp.1 (stored_arrange t order) hnodup hfollows hknown)
    refine exists_congr fun t' => and_congr_right fun hok => and_iff_left_of_imp fun _ a => ?_
    obtain ⟨htable, hkept⟩ := hempty t' hok
    cases ha : t'.items.lookup a with
    | none => rfl
    | some item => exact nomatch (htable item.tid).symm.trans ((hkept.mpr hp.2).item a item ha)

end TimerWin32

/-! ## Runs -/

/-- A timer object, and whether it has failed. -/
structure Multimedia (κ : Type) where
  timer : TimerWin32 κ
  halted : Bool

namespace Multimedia

/-- What happens to a timer object before it is destroyed. -/
inductive Act (κ : Type) where
  | start (tid tms : Int32) (func : κ) (alloc : Allocator) (set : TimeSetEvent) (now : UInt32)
  | startOnce (tid tms : Int32) (func : κ) (alloc : Allocator) (set : TimeSetEvent)
      (now : UInt32)
  | kill (tid : Int32) (order : Order TimerEntry)
  /-- The timer of the kernel with the id is due. -/
  | expire (id : UInt32) (released : Bool) (now : UInt32) (answer : κ → Int32 → UInt32 → Bool)
      (order : Order TimerEntry)

variable {κ : Type}

def init (κ : Type) : Multimedia κ := ⟨.init, false⟩

/-- The state after a call, which stays as it was if the call fails. -/
def after (s : Multimedia κ) : Except Fault (TimerWin32 κ) → Multimedia κ
  | .ok timer => { s with timer }
  | .error _ => { s with halted := true }

def call (s : Multimedia κ) : Act κ → Except Fault (TimerWin32 κ)
  | .start tid tms func alloc set now => (s.timer.start tid tms func alloc set now).map Prod.fst
  | .startOnce tid tms func alloc set now =>
      (s.timer.startOnce tid tms func alloc set now).map Prod.fst
  | .kill tid order => s.timer.kill tid order
  | .expire id released now answer order => s.timer.expire id released now answer order

def step (s : Multimedia κ) (act : Act κ) : Multimedia κ :=
  if s.halted then s else s.after (s.call act)

/-- Each timer of the kernel has its item, and none has been deleted too early. -/
def Sound (s : Multimedia κ) : Prop := s.timer.Sound

/-- The destructor goes through, and nothing is left after it. -/
def Ended (s : Multimedia κ) (order : Order TimerEntry) : Prop :=
  s.halted = false ∧ ∃ t', s.timer.destruct order = .ok t' ∧ t'.Gone

/--
No id is started that has an item, and not 0; where `kill` goes through the table, it comes
to its entry before it comes to a null one, and it is not called with 0.
-/
def Fits (s : Multimedia κ) : Act κ → Prop
  | .start tid .. | .startOnce tid .. => s.timer.Startable tid
  | .kill tid order => tid < 0 ∨ tid ≠ 0 ∧ s.timer.Finds tid order
  | .expire id released now answer order => s.timer.ExpiryFinds id released now answer order

/-- What is kept as long as all fits. -/
def Proper (s : Multimedia κ) : Prop := s.halted = false ∧ s.timer.Proper

/-- What is needed at the end. -/
def Kept (s : Multimedia κ) : Prop := s.halted = false ∧ s.timer.Kept

variable {s : Multimedia κ}

theorem inv_init (κ : Type) : (init κ).timer.Inv where
  item := fun tid a h => absurd h (by simp [init, TimerWin32.init])
  zero := fun a h => absurd h (by simp [init, TimerWin32.init])
  nonneg := fun tid a h => absurd h (by simp [init, TimerWin32.init])
  real := fun a item h => absurd h (by simp [init, TimerWin32.init])
  nonzero := fun k h => absurd h List.not_mem_nil
  unasked := fun k h => absurd h List.not_mem_nil
  onTimer := fun h => absurd rfl h

theorem proper_init (κ : Type) : (init κ).Proper := by
  refine ⟨rfl, ⟨fun k h => absurd h List.not_mem_nil, rfl⟩, fun a item h => ?_, fun h => ?_⟩
  · exact absurd h (by simp [init, TimerWin32.init])
  · exact absurd h (by simp [init, TimerWin32.init])

/-- **One call**: what it keeps, and when it leaves everything in order. -/
theorem call_spec (hi : s.timer.Inv) (act : Act κ) :
    (∀ t', s.call act = .ok t' → t'.Inv ∧ (t'.Kept → s.timer.Kept)) ∧
      (s.timer.Proper → ((∃ t', s.call act = .ok t' ∧ t'.Proper) ↔ s.Fits act)) := by
  have hstart : ∀ (tid tms : Int32) (func : κ) (periodic : Bool) (alloc : Allocator)
      (set : TimeSetEvent) (now : UInt32) (r : Except Fault (TimerWin32 κ)),
      r = (s.timer.startEvent tid tms func periodic alloc set now).map Prod.fst →
      (∀ t', r = .ok t' → t'.Inv ∧ (t'.Kept → s.timer.Kept)) ∧
        (s.timer.Proper → ((∃ t', r = .ok t' ∧ t'.Proper) ↔ s.timer.Startable tid)) := by
    intro tid tms func periodic alloc set now r hr
    obtain ⟨t', res, hok, hi', hk, hp⟩ := TimerWin32.inv_startEvent hi tid tms func periodic alloc
      set now
    rw [hok] at hr
    subst hr
    refine ⟨fun t'' h => ?_, fun hproper => ?_⟩
    · obtain rfl := Except.ok.inj h
      exact ⟨hi', hk⟩
    rw [← hp hproper]
    refine ⟨?_, fun h => ⟨t', rfl, h⟩⟩
    rintro ⟨t'', h, hp''⟩
    obtain rfl := Except.ok.inj h
    exact hp''
  cases act with
  | start tid tms func alloc set now => exact hstart tid tms func true alloc set now _ rfl
  | startOnce tid tms func alloc set now => exact hstart tid tms func false alloc set now _ rfl
  | kill tid order =>
      exact ⟨fun t' h => ⟨TimerWin32.inv_kill hi h, TimerWin32.kept_of_kill hi h⟩,
        fun hp => TimerWin32.proper_kill_iff hi hp tid order⟩
  | expire id released now answer order =>
      exact ⟨fun t' h => TimerWin32.inv_expire hi h,
        fun hp => (TimerWin32.ends_expire hi hp id released now answer order).iff⟩

theorem inv_step (s : Multimedia κ) (act : Act κ) (hi : s.timer.Inv) :
    (s.step act).timer.Inv := by
  unfold step
  split
  · exact hi
  · cases h : s.call act with
    | error e => exact hi
    | ok t' => exact ((call_spec hi act).1 t' h).1

theorem kept_of_step (s : Multimedia κ) (act : Act κ) (hi : s.timer.Inv)
    (h : (s.step act).Kept) : s.Kept := by
  unfold step at h
  split at h
  · exact h
  · rename_i hrun
    cases hcall : s.call act with
    | error e =>
        rw [hcall] at h
        exact nomatch h.1
    | ok t' =>
        rw [hcall] at h
        exact ⟨h.1, ((call_spec hi act).1 t' hcall).2 h.2⟩

theorem proper_step_iff (s : Multimedia κ) (act : Act κ) (hi : s.timer.Inv) (hp : s.Proper) :
    (s.step act).Proper ↔ s.Fits act := by
  obtain ⟨hrun, hp⟩ := hp
  unfold step
  rw [hrun, if_neg Bool.false_ne_true, ← (call_spec hi act).2 hp]
  cases s.call act with
  | error e =>
      refine iff_of_false (fun h => nomatch h.1) ?_
      rintro ⟨t', h, _⟩
      exact nomatch h
  | ok t' =>
      refine ⟨fun h => ⟨t', rfl, h.2⟩, ?_⟩
      rintro ⟨t'', h, hp''⟩
      obtain rfl := Except.ok.inj h
      exact ⟨hrun, hp''⟩

/--
**When no multimedia timer dangles.**

For every run on a new object and the destructor after it: each timer of the kernel that has
not been killed has its item at all times, no item is deleted before `timeKillEvent` was
called with its kernel id, and each is deleted in the end, if and only if everything fits
and the destructor finds nothing but what may be deleted.
-/
theorem sound_and_ended_iff (acts : List (Act κ)) (order : Order TimerEntry) :
    AllStates step Sound (init κ) acts ∧ Ended (acts.foldl step (init κ)) order ↔
      AllSteps step Fits (init κ) acts ∧
        (acts.foldl step (init κ)).timer.AllDeletable order := by
  have hinv : ∀ (s : Multimedia κ) act, s.timer.Inv → (s.step act).timer.Inv := inv_step
  have hproper : AllStates step Proper (init κ) acts ↔ AllSteps step Fits (init κ) acts :=
    allStates_iff_allSteps (I := fun s => s.timer.Inv) (inv_init κ) (proper_init κ) hinv
      proper_step_iff acts
  have hi : (acts.foldl step (init κ)).timer.Inv :=
    invariant (I := fun s : Multimedia κ => s.timer.Inv) (inv_init κ) hinv acts
  obtain ⟨hkept, hend⟩ := TimerWin32.destruct_spec hi order
  rw [← hproper]
  constructor
  · rintro ⟨hsound, hrun, hgone⟩
    have hall : AllStates step Kept (init κ) acts :=
      allStates_of_final (I := fun s => s.timer.Inv) hinv kept_of_step (inv_init κ)
        ⟨hrun, hkept hgone⟩
    have hboth : AllStates step Proper (init κ) acts :=
      (allStates_and.mpr ⟨hsound, hall⟩).mono fun _ h => ⟨h.2.1, h.1, h.2.2⟩
    have hlast := allStates_iff.mp hboth acts [] (List.append_nil _).symm
    exact ⟨hboth, (hend hlast.2).mp hgone⟩
  · rintro ⟨hboth, hdeletable⟩
    have hlast := allStates_iff.mp hboth acts [] (List.append_nil _).symm
    exact ⟨hboth.mono fun _ h => h.2.1, hlast.1, (hend hlast.2).mpr hdeletable⟩

/-- A kernel with room for one timer. -/
def oneTimer (id : UInt32) (h : id ≠ 0) : TimeSetEvent where
  result ids := if ids = [] then some id else none
  fresh ids id' hid := by
    split at hid
    · rename_i hnil
      obtain rfl := Option.some.inj hid
      exact ⟨hnil ▸ List.not_mem_nil, h⟩
    · exact nomatch hid

/-- `start(id, 1000, callback)` where the kernel has room, and numbers its timer 16. -/
def startOf (tid : Int32) : Act Unit :=
  .start tid 1000 () .above (oneTimer 16 (by decide)) 0

/-- The destructor does not stop a timer that runs; and a timer 0 loses its item at once. -/
theorem not_sound_and_ended :
    ¬ Ended ((init Unit).step (startOf 1)) (.stored _) ∧
      ¬ AllStates step Sound (init Unit) [startOf 0] := by
  constructor
  · rintro ⟨_, t', hok, hsound, _⟩
    have hpremature : (((init Unit).step (startOf 1)).timer.destruct (.stored _)).toOption.map
        TimerWin32.premature = some true := by
      decide +kernel
    rw [hok] at hpremature
    exact nomatch hsound.deleted.symm.trans (Option.some.inj hpremature)
  · intro h
    obtain ⟨item, hitem, _⟩ := h.2.user ⟨16, 0, true⟩ (by decide +kernel)
    have hgone : ((init Unit).step (startOf 0)).timer.items.lookup 0 = none := by decide +kernel
    exact nomatch hgone.symm.trans hitem

end Multimedia

end NanomsgDemo.Net

import Mathlib.Order.BooleanAlgebra.Set
import NanomsgDemo.Net.SocketTimer

/-!
# Callbacks that call the timer

A callback may call `start`, `kill` and `destroy` of the timer object that has called it.
`_timer_cb` reads the fired item again after the callback has returned false, and calls the
callback where it is stored: in `_on_timer`, which every `start` writes over.

What the calls of a callback do to the timers is said once, for the set of scheduled ids:
as long as nothing fails, the table does to it what the calls are for.
-/

namespace NanomsgDemo.Net

open Runs Recycling

namespace Timing

variable {κ : Type}

/-- A call of a method of the timer object. -/
inductive Call (κ : Type) where
  | start (tid tms : Int32) (func : κ) (alloc : Allocator) (add : Int32)
  | kill (tid : Int32) (order : Order TimerEntry)
  | destroy (order : Order TimerEntry)

/-- The same call from outside. -/
def Call.act : Call κ → Act κ
  | .start tid tms func alloc add => .start tid tms func alloc add
  | .kill tid order => .kill tid order
  | .destroy order => .destroy order

def call (s : Timing κ) (c : Call κ) : Timing κ := s.step c.act

/-! ## Which timers are scheduled -/

/-- The ids whose event is scheduled. -/
def scheduled (s : Timing κ) : Set Int32 :=
  {tid | ∃ a item, s.timer.timers.lookup tid = some (some a) ∧
    s.timer.items.lookup a = some item ∧ item.timeout.isSome = true}

/-- What a call is for: `start` schedules its id, if libevent does, and the others take ids away. -/
def Call.effect (ids : Set Int32) : Call κ → Set Int32
  | .start tid _ _ _ add =>
      if tid < 0 then ids else if add = 0 then insert tid ids else ids \ {tid}
  | .kill tid _ => if tid < 0 then ids else ids \ {tid}
  | .destroy _ => ∅

variable {s : Timing κ} {t' : TimerLinux κ} {tid : Int32} {a : Nat} {item : TimerItem}

theorem call_halted (hs : s.halted = true) (c : Call κ) : s.call c = s := by
  simp [call, step, hs]

theorem inv_call (s : Timing κ) (c : Call κ) (hi : s.Inv) : (s.call c).Inv :=
  inv_step s c.act hi

/-- A call that has failed is not followed by another. -/
theorem halted_call (s : Timing κ) (c : Call κ) (h : (s.call c).halted = false) :
    s.halted = false := by
  rcases hs : s.halted with _ | _
  · rfl
  · rw [call_halted hs, hs] at h
    exact h

theorem scheduled_placed (hi : s.Inv) (hp : TimerLinux.Placed s.timer t' tid a item)
    (started : List (Int32 × κ)) (halted : Bool) :
    scheduled { timer := t', started, halted } =
      if item.timeout.isSome then insert tid s.scheduled else s.scheduled \ {tid} := by
  have hother : ∀ j, j ≠ tid →
      (j ∈ scheduled { timer := t', started, halted } ↔ j ∈ s.scheduled) := by
    intro j hj
    refine exists_congr fun b => exists_congr fun old => ?_
    show t'.timers.lookup j = _ ∧ t'.items.lookup b = _ ∧ _ ↔ _
    rw [hp.timers, if_neg hj]
    refine and_congr_right fun hb => and_congr_left fun _ => ?_
    obtain ⟨found, hfound, hfj⟩ := hi.linked.item j b hb
    have hba : b ≠ a := fun hba => hj (hfj.symm.trans (hp.own found (hba ▸ hfound)))
    rw [hp.items, if_neg hba]
  have hself : tid ∈ scheduled { timer := t', started, halted } ↔ item.timeout.isSome = true := by
    have htid : t'.timers.lookup tid = some (some a) := by rw [hp.timers, if_pos rfl]
    have ha : t'.items.lookup a = some item := by rw [hp.items, if_pos rfl]
    refine ⟨fun h => ?_, fun h => ⟨a, item, htid, ha, h⟩⟩
    obtain ⟨b, found, hb, hfound, htime⟩ := h
    obtain rfl : a = b := Option.some.inj (Option.some.inj (htid.symm.trans hb))
    obtain rfl : item = found := Option.some.inj (ha.symm.trans hfound)
    exact htime
  ext j
  by_cases hj : j = tid
  · subst hj
    rw [hself]
    cases item.timeout.isSome with
    | true => simp
    | false => simp
  · rw [hother j hj]
    cases item.timeout.isSome with
    | true => simp [hj]
    | false => simp [hj]

theorem scheduled_removed (hi : s.Inv) (ha : s.timer.timers.lookup tid = some (some a))
    (hr : TimerLinux.Removed s.timer t' tid a) (halted : Bool) :
    scheduled { s with timer := t', halted } = s.scheduled \ {tid} := by
  ext j
  show (∃ b old, t'.timers.lookup j = some (some b) ∧ t'.items.lookup b = some old ∧ _) ↔ _
  by_cases hj : j = tid
  · subst hj
    simp [hr.timers]
  · have hout : j ∉ ({tid} : Set Int32) := hj
    rw [Set.mem_sdiff, and_iff_left hout]
    refine exists_congr fun b => exists_congr fun old => ?_
    rw [hr.timers, if_neg hj]
    refine and_congr_right fun hb => and_congr_left fun _ => ?_
    obtain ⟨found, hfound, hfj⟩ := hi.linked.item j b hb
    have hba : b ≠ a := by
      intro hba
      obtain ⟨fired, hfired, htid⟩ := hi.linked.item tid a ha
      obtain rfl : found = fired := Option.some.inj ((hba ▸ hfound).symm.trans hfired)
      exact hj (hfj.symm.trans htid)
    rw [hr.items, if_neg hba]

/-- Where there is no item, nothing is scheduled. -/
theorem notMem_scheduled (h : ∀ b, s.timer.timers.lookup tid ≠ some (some b)) :
    tid ∉ s.scheduled := fun ⟨b, _, hb, _⟩ => h b hb

/-- `kill` takes its id away, unless it fails. -/
theorem scheduled_kill (hi : s.Inv) (tid : Int32) (order : Order TimerEntry)
    (h : (s.after (s.timer.kill tid order)).halted = false) :
    (s.after (s.timer.kill tid order)).scheduled =
      if tid < 0 then s.scheduled else s.scheduled \ {tid} := by
  by_cases hneg : tid < 0
  · rw [TimerLinux.kill, if_pos hneg, if_pos hneg]
    rfl
  · rw [if_neg hneg]
    rcases TimerLinux.kill_cases hi.linked (Int32.not_lt.mp hneg) order with ⟨hnone, hok⟩ |
      ⟨hnull, hok⟩ | ⟨a, ha, ⟨herr, _⟩ | ⟨t', hok, hr, _⟩⟩
    · -- the new entry is null
      have hout : tid ∉ s.scheduled := notMem_scheduled fun b hb => by
        rw [hnone] at hb
        exact absurd hb (by simp)
      rw [hok, Set.sdiff_singleton_eq_self hout]
      ext j
      show (∃ b old, (s.timer.timers.insert tid none).lookup j = some (some b) ∧ _) ↔
        ∃ b old, s.timer.timers.lookup j = some (some b) ∧ _
      by_cases hj : j = tid
      · rw [hj, AList.lookup_insert, hnone]
        simp
      · rw [AList.lookup_insert_ne hj]
        exact Iff.rfl
    · have hout : tid ∉ s.scheduled := notMem_scheduled fun b hb => by
        rw [hnull] at hb
        exact absurd hb (by simp)
      rw [hok, Set.sdiff_singleton_eq_self hout]
      rfl
    · rw [herr] at h
      exact absurd h (by simp [after])
    · rw [hok]
      exact scheduled_removed hi ha hr s.halted

/--
**As long as a call does not fail, it does to the scheduled ids what it is for.**
-/
theorem scheduled_call (hi : s.Inv) (c : Call κ) (h : (s.call c).halted = false) :
    (s.call c).scheduled = c.effect s.scheduled := by
  have hs := halted_call s c h
  have hcall : s.call c = s.perform c.act := by simp [call, step, hs]
  rw [hcall] at h ⊢
  cases c with
  | start tid tms func alloc add =>
      show (s.perform (.start tid tms func alloc add)).scheduled =
        if tid < 0 then s.scheduled else _
      by_cases hneg : tid < 0
      · rw [if_pos hneg]
        simp only [perform, start_neg hneg, if_pos hneg]
        rfl
      · obtain ⟨t', a, hok, _, hp⟩ := TimerLinux.start_spec hi.linked hi.processor
          (Int32.not_lt.mp hneg) tms func alloc add
        rw [if_neg hneg]
        simp only [perform, if_neg hneg, hok]
        refine (scheduled_placed hi hp _ _).trans ?_
        by_cases hadd : add = 0
        · simp [hadd]
        · simp [hadd]
  | kill tid order => exact scheduled_kill hi tid order h
  | destroy order =>
      rcases TimerLinux.destroy_cases hi.linked order with ⟨herr, _⟩ |
        ⟨t', hok, _, _, _, hnone, _⟩
      · have hafter : (s.after (s.timer.destroy order)).halted = true := by
          rw [herr]
          rfl
        exact absurd (hafter.symm.trans h) (by simp)
      · show (s.after (s.timer.destroy order)).scheduled = ∅
        rw [hok]
        refine Set.eq_empty_iff_forall_notMem.mpr fun j => notMem_scheduled fun b hb => ?_
        have hb : t'.timers.lookup j = some (some b) := hb
        rw [hnone] at hb
        exact absurd hb (by simp)

/-- The same for all calls that a callback makes. -/
theorem scheduled_calls (hi : s.Inv) (calls : List (Call κ))
    (h : (calls.foldl call s).halted = false) :
    (calls.foldl call s).scheduled = calls.foldl Call.effect s.scheduled := by
  induction calls generalizing s with
  | nil => rfl
  | cons c calls ih =>
      have hfirst : (s.call c).halted = false :=
        of_foldl (P := fun s : Timing κ => s.halted = false) halted_call h
      rw [List.foldl_cons, List.foldl_cons, ← scheduled_call hi c hfirst]
      exact ih (inv_call s c hi) h

/-! ## Callbacks -/

/-- What happens to a timer object whose callbacks call it. -/
inductive Happening (κ : Type) where
  | call (c : Call κ)
  /-- The event of the item at the address is due; the callbacks make calls, and answer. -/
  | expire (item : Nat) (behaviour : κ → Int32 → UInt32 → List (Call κ) × Bool)
      (order : Order TimerEntry)

/-- `TimerLinux::_timer_cb`, after the callback has returned: the fired item is read again. -/
def finish (s : Timing κ) (a : Nat) (answer : Bool) (order : Order TimerEntry) : Timing κ :=
  if answer then s
  else
    match s.timer.deref (some a) with
    | .error _ => { s with halted := true }
    | .ok (_, ptimer) => s.after (s.timer.kill ptimer.tid order)

/-- `TimerLinux::_timer_cb` for a callback that calls the timer object. -/
def fire (s : Timing κ) (a : Nat) (behaviour : κ → Int32 → UInt32 → List (Call κ) × Bool)
    (order : Order TimerEntry) : Timing κ :=
  match s.timer.deref (some a) with
  | .error _ => { s with halted := true }
  | .ok (_, ptimer) =>
      match s.timer.onTimer with
      | none => { s with halted := true }    -- an empty `std::function`
      | some onTimer =>
          let (calls, answer) := behaviour onTimer ptimer.tid 0
          let s := calls.foldl call s
          if s.halted then s else s.finish a answer order

def happen (s : Timing κ) (h : Happening κ) : Timing κ :=
  if s.halted then s
  else
    match h with
    | .call c => s.call c
    | .expire a behaviour order =>
        match s.due a with
        | none => s
        | some item => (s.fired a item).fire a behaviour order

/-- `_on_timer = func` destroys what it held. -/
def KeepsCallback (s : Timing κ) : Call κ → Prop
  | .start tid _ _ _ _ => s.halted = false → tid < 0
  | .kill .. | .destroy _ => True

/-- The item that has fired is still there. -/
def Alive (a : Nat) (tid : Int32) (s : Timing κ) : Prop :=
  ∃ item, s.timer.items.lookup a = some item ∧ item.tid = tid

/--
A callback that is called is not destroyed by the calls it makes; if it returns false, its
item is there all the time; and nothing fails, so that afterwards those ids are scheduled
that its calls leave scheduled, without its own if it returned false.
-/
def Right (s : Timing κ) : Happening κ → Prop
  | .call _ => True
  | .expire a behaviour order =>
      s.halted = false → ∀ item f, s.due a = some item → s.timer.onTimer = some f →
        let s := s.fired a item
        let (calls, answer) := behaviour f item.tid 0
        let ids := calls.foldl Call.effect s.scheduled
        let t := s.fire a behaviour order
        AllSteps call KeepsCallback s calls ∧
          (answer = false → AllStates call (Alive a item.tid) s calls) ∧
          t.halted = false ∧ t.scheduled = if answer then ids else ids \ {item.tid}

/-- `kill` finds the entry of the id before it comes to a null one, if it goes through them. -/
def Finds (s : Timing κ) (tid : Int32) (order : Order TimerEntry) : Prop :=
  0 ≤ tid → (∃ a, s.timer.timers.lookup tid = some (some a)) →
    TimerLinux.NoNullBefore tid (order.arrange s.timer.timers.entries)

/--
A call that a callback may make: no `start` of an id that is not negative; a `kill` that
finds its entry, but not of the own id before returning false; and a `destroy` of a table
without null entries, but not before returning false.
-/
def Harmless (tid : Int32) (answer : Bool) (s : Timing κ) : Call κ → Prop
  | .start tid' _ _ _ _ => tid' < 0
  | .kill tid' order => (answer = false → tid' ≠ tid) ∧ s.Finds tid' order
  | .destroy _ => answer = true ∧ ∀ j, s.timer.timers.lookup j ≠ some none

/-- All the calls of the callback are harmless, and so is the `kill` that follows it. -/
def Behaves (s : Timing κ) : Happening κ → Prop
  | .call _ => True
  | .expire a behaviour order =>
      s.halted = false → ∀ item f, s.due a = some item → s.timer.onTimer = some f →
        let s := s.fired a item
        let (calls, answer) := behaviour f item.tid 0
        AllSteps call (Harmless item.tid answer) s calls ∧
          (answer = false → (calls.foldl call s).Finds item.tid order)

/-! ## One call of a callback -/

/-- `kill` goes through exactly if it finds what it looks for. -/
theorem halted_kill_iff (hi : s.Inv) (hs : s.halted = false) (tid : Int32)
    (order : Order TimerEntry) :
    (s.after (s.timer.kill tid order)).halted = false ↔ s.Finds tid order := by
  by_cases hneg : tid < 0
  · rw [TimerLinux.kill, if_pos hneg]
    exact iff_of_true hs fun hpos => absurd hneg (TimerLinux.not_neg hpos)
  · have hpos : 0 ≤ tid := Int32.not_lt.mp hneg
    unfold Finds
    rw [forall_prop_of_true hpos]
    rcases TimerLinux.kill_cases hi.linked hpos order with ⟨hnone, hok⟩ | ⟨hnull, hok⟩ |
      ⟨a, ha, ⟨herr, _, hbad⟩ | ⟨t', hok, _, hgood⟩⟩
    · rw [hok, hnone]
      exact iff_of_true hs fun h => absurd h (by simp)
    · rw [hok, hnull]
      exact iff_of_true hs fun h => absurd h (by simp)
    · rw [herr]
      exact iff_of_false (fun h => absurd h (by simp [after])) fun h => hbad (h ⟨a, ha⟩)
    · rw [hok]
      exact iff_of_true hs fun _ => hgood

/-- After a `kill` that goes through, the other items are as they were, and its own is gone. -/
theorem alive_kill_iff (hi : s.Inv) {a : Nat} {tid tid' : Int32} (ha : Alive a tid s)
    (order : Order TimerEntry)
    (h : (s.after (s.timer.kill tid' order)).halted = false) :
    Alive a tid (s.after (s.timer.kill tid' order)) ↔ tid' ≠ tid := by
  obtain ⟨item, hitem, rfl⟩ := ha
  obtain ⟨hentry, hpos⟩ := hi.linked.entry a item hitem
  have hsame : ∀ t : TimerLinux κ, t.items = s.timer.items →
      Alive a item.tid { s with timer := t } := by
    intro t ht
    exact ⟨item, (congrArg (AList.lookup a) ht).trans hitem, rfl⟩
  by_cases hneg : tid' < 0
  · rw [TimerLinux.kill, if_pos hneg]
    refine iff_of_true (hsame _ rfl) fun heq => ?_
    rw [heq] at hneg
    exact TimerLinux.not_neg hpos hneg
  · rcases TimerLinux.kill_cases hi.linked (Int32.not_lt.mp hneg) order with ⟨hnone, hok⟩ |
      ⟨hnull, hok⟩ | ⟨b, hb, ⟨herr, _⟩ | ⟨t', hok, hr, _⟩⟩
    · rw [hok]
      refine iff_of_true (hsame _ rfl) fun heq => ?_
      rw [heq, hentry] at hnone
      exact absurd hnone (by simp)
    · rw [hok]
      refine iff_of_true (hsame _ rfl) fun heq => ?_
      rw [heq, hentry] at hnull
      exact absurd hnull (by simp)
    · rw [herr] at h
      exact absurd h (by simp [after])
    · rw [hok]
      have hlook : ∀ c, t'.items.lookup c = if c = b then none else s.timer.items.lookup c :=
        hr.items
      show (∃ found, t'.items.lookup a = some found ∧ found.tid = item.tid) ↔ _
      rw [hlook]
      by_cases hab : a = b
      · obtain ⟨found, hfound, htid⟩ := hi.linked.item tid' b hb
        obtain rfl : item = found := Option.some.inj ((hab ▸ hitem).symm.trans hfound)
        rw [if_pos hab]
        exact iff_of_false (fun h => absurd h (by simp)) fun hne => hne htid.symm
      · rw [if_neg hab]
        refine iff_of_true ⟨item, hitem, rfl⟩ fun heq => hab ?_
        rw [heq, hentry] at hb
        exact Option.some.inj (Option.some.inj hb)

/-- Nothing has failed, and the item that has fired is there if it will be read again. -/
def Running (a : Nat) (tid : Int32) (answer : Bool) (s : Timing κ) : Prop :=
  s.halted = false ∧ (answer = false → Alive a tid s)

/-- **One call of a callback.** -/
theorem harmless_iff (s : Timing κ) (c : Call κ) {answer : Bool} (hi : s.Inv)
    (hrun : Running a tid answer s) :
    KeepsCallback s c ∧ Running a tid answer (s.call c) ↔ Harmless tid answer s c := by
  obtain ⟨hs, halive⟩ := hrun
  have hcall : s.call c = s.perform c.act := by simp [call, step, hs]
  rw [hcall]
  cases c with
  | start tid' tms func alloc add =>
      refine ⟨fun h => h.1 hs, fun hneg => ⟨fun _ => hneg, ?_⟩⟩
      have hneg : tid' < 0 := hneg
      have hsame : s.perform (.start tid' tms func alloc add) = s := by
        simp only [perform, start_neg hneg, if_pos hneg]
        rfl
      show Running a tid answer (s.perform (.start tid' tms func alloc add))
      rw [hsame]
      exact ⟨hs, halive⟩
  | kill tid' order =>
      show True ∧ (s.after (s.timer.kill tid' order)).halted = false ∧
          (answer = false → Alive a tid (s.after (s.timer.kill tid' order))) ↔
        (answer = false → tid' ≠ tid) ∧ s.Finds tid' order
      rw [true_and, ← halted_kill_iff hi hs, and_comm]
      refine and_congr_left fun hrun => forall_congr' fun hanswer => ?_
      exact alive_kill_iff hi (halive hanswer) order hrun
  | destroy order =>
      show True ∧ (s.after (s.timer.destroy order)).halted = false ∧
          (answer = false → Alive a tid (s.after (s.timer.destroy order))) ↔
        answer = true ∧ ∀ j, s.timer.timers.lookup j ≠ some none
      rcases TimerLinux.destroy_cases hi.linked order with ⟨herr, j, hj⟩ |
        ⟨t', hok, hlinked, _, _, hempty, _, hnone⟩
      · rw [herr]
        exact iff_of_false (fun h => absurd h.2.1 (by simp [after])) fun h => h.2 j hj
      · have hgone : ¬ Alive a tid (s.after (.ok t')) := by
          rintro ⟨item, hitem, _⟩
          have hentry := (hlinked.entry a item hitem).1
          rw [hempty] at hentry
          exact absurd hentry (by simp)
        have hanswer : (answer = false → Alive a tid (s.after (.ok t'))) ↔ answer = true := by
          cases answer with
          | true => simp
          | false => simpa using hgone
        rw [hok, hanswer, true_and, and_iff_left hnone]
        exact and_iff_right hs

/-! ## Runs -/

theorem inv_calls (hi : s.Inv) (calls : List (Call κ)) : (calls.foldl call s).Inv :=
  invariant hi inv_call calls

theorem inv_finish (hi : s.Inv) (a : Nat) (answer : Bool) (order : Order TimerEntry) :
    (s.finish a answer order).Inv := by
  unfold finish
  split
  · exact hi
  · split
    · exact ⟨hi.linked, hi.processor, hi.last, hi.logged⟩
    · exact inv_kill hi _ order

theorem inv_happen (s : Timing κ) (h : Happening κ) (hi : s.Inv) : (s.happen h).Inv := by
  unfold happen
  split
  · exact hi
  · cases h with
    | call c => exact inv_call s c hi
    | expire a behaviour order =>
        dsimp only
        split
        · exact hi
        · rename_i item hd
          have hi' := inv_fired hi (due_eq_some.mp hd).1
          unfold fire
          split
          · exact ⟨hi'.linked, hi'.processor, hi'.last, hi'.logged⟩
          · split
            · exact ⟨hi'.linked, hi'.processor, hi'.last, hi'.logged⟩
            · dsimp only
              split
              · exact inv_calls hi' _
              · exact inv_finish (inv_calls hi' _) a _ order

/-- The callback that is called is the stored one, and is told the id of the item. -/
theorem fire_eq {f : κ} (ha : s.timer.items.lookup a = some item) (hf : s.timer.onTimer = some f)
    (behaviour : κ → Int32 → UInt32 → List (Call κ) × Bool) (order : Order TimerEntry) :
    s.fire a behaviour order =
      if ((behaviour f item.tid 0).1.foldl call s).halted then
        (behaviour f item.tid 0).1.foldl call s
      else ((behaviour f item.tid 0).1.foldl call s).finish a (behaviour f item.tid 0).2 order := by
  simp [fire, TimerLinux.deref, ha, hf]

/-- What follows the callback goes through if the item is there, and its entry is found. -/
theorem finish_spec (hi : s.Inv) {answer : Bool} (hrun : Running a tid answer s)
    (order : Order TimerEntry) :
    ((s.finish a answer order).halted = false ↔ (answer = false → s.Finds tid order)) ∧
      ((s.finish a answer order).halted = false →
        (s.finish a answer order).scheduled =
          if answer then s.scheduled else s.scheduled \ {tid}) := by
  obtain ⟨hs, halive⟩ := hrun
  cases answer with
  | true => exact ⟨iff_of_true hs (fun h => nomatch h), fun _ => rfl⟩
  | false =>
      obtain ⟨item, hitem, rfl⟩ := halive rfl
      have hderef : s.timer.deref (some a) = .ok (a, item) := by simp [TimerLinux.deref, hitem]
      have hfinish : s.finish a false order = s.after (s.timer.kill item.tid order) := by
        rw [finish, if_neg Bool.false_ne_true, hderef]
      have hneg : ¬ item.tid < 0 := TimerLinux.not_neg (hi.linked.entry a item hitem).2
      rw [hfinish, forall_prop_of_true rfl]
      refine ⟨halted_kill_iff hi hs item.tid order, fun h => ?_⟩
      rw [scheduled_kill hi item.tid order h, if_neg hneg]
      rfl

/-- **One callback.** -/
theorem right_expire_iff (hi : s.Inv) (hs : s.halted = false) {f : κ}
    (ha : s.timer.items.lookup a = some item) (hf : s.timer.onTimer = some f)
    (behaviour : κ → Int32 → UInt32 → List (Call κ) × Bool) (order : Order TimerEntry)
    {calls : List (Call κ)} {answer : Bool} (hb : behaviour f item.tid 0 = (calls, answer)) :
    (AllSteps call KeepsCallback s calls ∧
        (answer = false → AllStates call (Alive a item.tid) s calls) ∧
        (s.fire a behaviour order).halted = false ∧
        (s.fire a behaviour order).scheduled =
          if answer then calls.foldl Call.effect s.scheduled
          else calls.foldl Call.effect s.scheduled \ {item.tid}) ↔
      AllSteps call (Harmless item.tid answer) s calls ∧
        (answer = false → (calls.foldl call s).Finds item.tid order) := by
  have hrun : Running a item.tid answer s := ⟨hs, fun _ => ⟨item, ha, rfl⟩⟩
  have hsteps := allSteps_and_allStates_iff (R := KeepsCallback) hi hrun inv_call
    (fun t c hi hrun => harmless_iff t c hi hrun) calls
  have hfire := fire_eq ha hf behaviour order
  rw [hb] at hfire
  constructor
  · rintro ⟨hkeeps, halive, hend, _⟩
    -- nothing has failed on the way
    have hcalls : (calls.foldl call s).halted = false := by
      rcases hc : (calls.foldl call s).halted with _ | _
      · rfl
      · rw [hfire, if_pos hc, hc] at hend
        exact hend
    have hawake : AllStates call (fun t => t.halted = false) s calls :=
      allStates_of_final (I := fun _ => True) (fun _ _ _ => trivial)
        (fun t c _ h => halted_call t c h) trivial hcalls
    have hrunning : AllStates call (Running a item.tid answer) s calls :=
      allStates_iff.mpr fun pre post hq => ⟨allStates_iff.mp hawake pre post hq,
        fun hanswer => allStates_iff.mp (halive hanswer) pre post hq⟩
    have hlast := allStates_iff.mp hrunning calls [] (List.append_nil _).symm
    rw [hfire, if_neg (by rw [hcalls]; exact Bool.false_ne_true)] at hend
    exact ⟨hsteps.mp ⟨hkeeps, hrunning⟩, (finish_spec (inv_calls hi calls) hlast order).1.mp hend⟩
  · rintro ⟨hharmless, hfinds⟩
    obtain ⟨hkeeps, hrunning⟩ := hsteps.mpr hharmless
    have hlast := allStates_iff.mp hrunning calls [] (List.append_nil _).symm
    obtain ⟨hiff, hscheduled⟩ := finish_spec (inv_calls hi calls) hlast order
    rw [hfire, if_neg (by rw [hlast.1]; exact Bool.false_ne_true)]
    refine ⟨hkeeps, fun hanswer => hrunning.mono fun _ hr => hr.2 hanswer, hiff.mpr hfinds, ?_⟩
    rw [hscheduled (hiff.mpr hfinds), scheduled_calls hi calls hlast.1]

theorem right_iff (s : Timing κ) (h : Happening κ) (hi : s.Inv) : s.Right h ↔ s.Behaves h := by
  cases h with
  | call c => exact Iff.rfl
  | expire a behaviour order =>
      refine forall_congr' fun hs => forall_congr' fun item => forall_congr' fun f =>
        forall_congr' fun hd => forall_congr' fun hf => ?_
      rcases hb : behaviour f item.tid 0 with ⟨calls, answer⟩
      have hi' := inv_fired hi (due_eq_some.mp hd).1
      exact right_expire_iff hi' hs (fired_items s a item) hf behaviour order hb

/--
**Which callbacks may call the timer object.**

For every run, whatever the callbacks call and answer: none is destroyed while it is
executed, no deleted item is read, and afterwards the ids are scheduled that its calls
leave, without its own if it returned false, if and only if every call of a callback is
harmless and the `kill` that follows it finds its entry.
-/
theorem reentrant_right_iff (processor : Nat) (happenings : List (Happening κ)) :
    AllSteps happen Right (init κ processor) happenings ↔
      AllSteps happen Behaves (init κ processor) happenings :=
  allSteps_congr (inv_init κ processor) inv_happen right_iff happenings

/-- A callback kills its own timer and returns false; one restarts its own. -/
theorem not_right_own_id :
    ¬ AllSteps happen Right (init Unit 0)
        [.call (.start 1 1000 () .above 0),
          .expire 0 (fun _ tid _ => ([.kill tid (.stored _)], false)) (.stored _)] ∧
      ¬ AllSteps happen Right (init Unit 0)
        [.call (.start 1 1000 () .above 0),
          .expire 0 (fun f tid _ => ([.start tid 1000 f .above 0], true)) (.stored _)] := by
  have hdue : (init Unit 0 |>.happen (.call (.start 1 1000 () .above 0))).due 0 =
      some ⟨1000, 1, some ⟨1, 0⟩⟩ := by decide
  refine ⟨fun h => ?_, fun h => ?_⟩
  · obtain ⟨_, halive, _⟩ := h.2.1 rfl _ () hdue rfl
    obtain ⟨item, hitem, _⟩ := (halive rfl).2
    have hgone : (((init Unit 0).happen (.call (.start 1 1000 () .above 0))).call
        (.kill 1 (.stored _))).timer.items.lookup 0 = none := by decide
    exact nomatch hgone.symm.trans hitem
  · obtain ⟨hkeeps, _⟩ := h.2.1 rfl _ () hdue rfl
    exact absurd (hkeeps.1 rfl) (by decide)

end Timing

end NanomsgDemo.Net

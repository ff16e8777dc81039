import Mathlib.Logic.Function.Basic
import NanomsgDemo.Lib.Tagged
import NanomsgDemo.Net.MessageQueue

/-!
# Several producers and consumers on one channel

`push` holds the lock throughout. `pop` tests without it whether the channel is
empty, counts the message off, and takes the lock only to remove it. In between,
other calls run; a consumer may come to the lock after others have emptied the
channel, and then reads the front of an empty `std::queue`.

`step` is one call moving on by one of these sections, and a schedule is the list
of the calls that move. As long as no consumer counts off a message that the others have
counted off already, every message is returned once, the count is right whenever no call
is on its way, and never negative.
-/

namespace NanomsgDemo.Net

open Runs Tagged

namespace SimpleMessageQueue

variable {w : Nat}

/-- `_msg_queue.at(key).empty()`; `none` if `at` throws. -/
def channelEmpty (q : SimpleMessageQueue w) (channel : Option CString) : Option Bool :=
  (q.msgQueue.lookup (channelKey w channel)).map List.isEmpty

/-- `_msg_total -= 1`. -/
def countOff (q : SimpleMessageQueue w) : SimpleMessageQueue w :=
  { q with msgTotal := q.msgTotal - 1 }

/-- What the locked section of `pop` does: `at` throws, the queue is empty, or a message. -/
inductive Front (w : Nat) where
  | threw
  | undefined
  | taken (q : SimpleMessageQueue w) (msg : Msgdata)

/-- The locked section of `pop`: `front`, then `pop` of the `std::queue`. -/
def takeFront (q : SimpleMessageQueue w) (channel : Option CString) : Front w :=
  match q.msgQueue.lookup (channelKey w channel) with
  | none => .threw
  | some [] => .undefined
  | some (msg :: l) =>
      .taken { q with msgQueue := q.msgQueue.insert (channelKey w channel) l } msg

/-- A call of `pop` is its three sections, when nothing comes between them. -/
theorem pop_eq_sections (q : SimpleMessageQueue w) (channel : Option CString) :
    q.pop channel =
      match q.channelEmpty channel with
      | none => none
      | some true => some (q, NULL_MSG)
      | some false =>
          match q.countOff.takeFront channel with
          | .taken q msg => some (q, msg)
          | _ => none := by
  unfold pop channelEmpty takeFront countOff
  cases q.msgQueue.lookup (channelKey w channel) with
  | none => rfl
  | some l =>
      cases l with
      | nil => rfl
      | cons msg l => rfl

end SimpleMessageQueue

namespace QueueConsumers

/-- A call of a producer or of a consumer. -/
inductive Call where
  | push (msg : Msgdata)
  | pop
  deriving DecidableEq

/-- Where a call stands. -/
inductive Pc where
  | start
  /-- The channel was not empty when it was tested. -/
  | tested
  /-- Before the locked section. -/
  | counted
  /-- The call has returned, a `pop` with a message. -/
  | returned (msg : Option Msgdata)
  /-- An exception, or the front of an empty queue. -/
  | failed
  deriving DecidableEq

/-- The queue, the calls on it, and the record of what was pushed and taken. -/
structure Shared (w : Nat) (ι : Type) where
  queue : SimpleMessageQueue w
  pc : ι → Pc
  pushed : List Msgdata
  /-- The messages removed, in order, each with the call that removed it. -/
  taken : List (ι × Msgdata)
  /-- The calls that have tested and not yet counted. -/
  testing : List ι
  /-- The calls that have counted and not yet removed. -/
  owing : List ι

variable {w : Nat} {ι : Type}

/-- A channel that exists and is empty, and no call begun. -/
def init (channel : Option CString) : Shared w ι where
  queue := ⟨AList.singleton (channelKey w channel) [], 0⟩
  pc := fun _ => .start
  pushed := []
  taken := []
  testing := []
  owing := []

/-- For the default channel that is what `createChannel` makes. -/
theorem init_default :
    (init none : Shared w ι).queue = (SimpleMessageQueue.init.createChannel none).1 := rfl

/-- Call `i` moves on by one section. -/
def step [DecidableEq ι] (channel : Option CString) (input : ι → Call) (s : Shared w ι) (i : ι) :
    Shared w ι :=
  match s.pc i with
  | .start =>
      match input i with
      | .push msg =>
          match s.queue.push msg channel with
          | none => { s with pc := Function.update s.pc i .failed }
          | some queue =>
              { s with
                queue
                pc := Function.update s.pc i (.returned none)
                pushed := s.pushed ++ [msg] }
      | .pop =>
          match s.queue.channelEmpty channel with
          | none => { s with pc := Function.update s.pc i .failed }
          | some true => { s with pc := Function.update s.pc i (.returned (some NULL_MSG)) }
          | some false =>
              { s with
                pc := Function.update s.pc i .tested
                testing := s.testing ++ [i] }
  | .tested =>
      { s with
        queue := s.queue.countOff
        pc := Function.update s.pc i .counted
        testing := s.testing.erase i
        owing := s.owing ++ [i] }
  | .counted =>
      match s.queue.takeFront channel with
      | .threw => { s with pc := Function.update s.pc i .failed }
      | .undefined => { s with pc := Function.update s.pc i .failed }
      | .taken queue msg =>
          { s with
            queue
            pc := Function.update s.pc i (.returned (some msg))
            taken := s.taken ++ [(i, msg)]
            owing := s.owing.erase i }
  | .returned _ => s
  | .failed => s

/-- The messages in the channel. -/
def queued (channel : Option CString) (s : Shared w ι) : List Msgdata :=
  (s.queue.msgQueue.lookup (channelKey w channel)).getD []

/-- No call is on its way. -/
def Quiet (s : Shared w ι) : Prop := ∀ i, s.pc i = .start ∨ ∃ msg, s.pc i = .returned msg

/--
No call has read the front of an empty queue, every message pushed is still queued
or was returned by one call, and the size is right whenever no call is on its way, and
never negative.
-/
structure Delivers (channel : Option CString) (s : Shared w ι) : Prop where
  nonempty : ∀ i, s.pc i ≠ .failed
  all : s.pushed = s.taken.map Prod.snd ++ queued channel s
  returned : ∀ i msg, (i, msg) ∈ s.taken → s.pc i = .returned (some msg)
  one : (s.taken.map Prod.fst).Nodup
  size : Quiet s → s.queue.size = (queued channel s).length
  nonneg : 0 ≤ s.queue.size

/-- A consumer counts off only a message that no other one has counted off. -/
def Unclaimed (channel : Option CString) (s : Shared w ι) (i : ι) : Prop :=
  s.pc i = .tested → s.owing.length < (queued channel s).length

/-- Not more consumers are let past the test than there are messages. -/
def Reserved (channel : Option CString) (input : ι → Call) (s : Shared w ι) (i : ι) : Prop :=
  s.pc i = .start → input i = .pop → queued channel s ≠ [] →
    s.testing.length + s.owing.length < (queued channel s).length

/-- What holds in every state. -/
structure Inv (channel : Option CString) (s : Shared w ι) : Prop where
  exists_channel : s.queue.msgQueue.lookup (channelKey w channel) = some (queued channel s)
  all : s.pushed = s.taken.map Prod.snd ++ queued channel s
  returned : ∀ i msg, (i, msg) ∈ s.taken → s.pc i = .returned (some msg)
  one : (s.taken.map Prod.fst).Nodup
  size : s.queue.msgTotal + s.owing.length = (queued channel s).length
  testing : Lists (· = .tested) s.pc s.testing
  owing : Lists (fun p => p = .counted ∨ p = .failed) s.pc s.owing

variable {channel : Option CString} {input : ι → Call} {s : Shared w ι} {i : ι}

theorem lookup_init : (init channel : Shared w ι).queue.msgQueue.lookup (channelKey w channel) =
    some [] := List.dlookup_cons_eq _ _ _

theorem queued_init : queued channel (init channel : Shared w ι) = [] := by
  rw [queued, lookup_init, Option.getD_some]

theorem inv_init : Inv channel (init channel : Shared w ι) where
  exists_channel := by rw [lookup_init, queued_init]
  all := queued_init.symm
  returned := by simp [init]
  one := List.nodup_nil
  size := by
    rw [queued_init]
    rfl
  testing := ⟨by simp [init], List.nodup_nil⟩
  owing := ⟨by simp [init], List.nodup_nil⟩

/-- A call that has not returned yet has taken no message. -/
theorem Inv.not_taken (hi : Inv channel s) (hpc : ∀ msg, s.pc i ≠ .returned msg) :
    i ∉ s.taken.map Prod.fst := by
  intro hm
  rcases List.mem_map.mp hm with ⟨e, he, hei⟩
  have hret := hi.returned e.1 e.2 he
  rw [hei] at hret
  exact hpc _ hret

variable [DecidableEq ι]

/-- Moving a call that has not returned leaves those that have as they are. -/
theorem Inv.returned_update (hi : Inv channel s) (hpc : ∀ msg, s.pc i ≠ .returned msg) (p : Pc) :
    ∀ j msg, (j, msg) ∈ s.taken → Function.update s.pc i p j = .returned (some msg) := by
  intro j msg hj
  have hji : j ≠ i := by
    intro hji
    subst hji
    exact hpc _ (hi.returned j msg hj)
  rw [Function.update_of_ne hji]
  exact hi.returned j msg hj

/-! ## What each section does -/

omit [DecidableEq ι] in
theorem queued_insert {l : List Msgdata} {n : Int} {pc : ι → Pc} {pushed : List Msgdata}
    {taken : List (ι × Msgdata)} {testing owing : List ι} :
    queued channel (⟨⟨s.queue.msgQueue.insert (channelKey w channel) l, n⟩, pc, pushed, taken,
      testing, owing⟩ : Shared w ι) = l := by
  simp [queued]

theorem step_push (hi : Inv channel s) (hpc : s.pc i = .start) {msg : Msgdata}
    (hin : input i = .push msg) :
    step channel input s i =
      { s with
        queue := ⟨s.queue.msgQueue.insert (channelKey w channel) (queued channel s ++ [msg]),
          s.queue.msgTotal + 1⟩
        pc := Function.update s.pc i (.returned none)
        pushed := s.pushed ++ [msg] } := by
  simp only [step, hpc, hin, SimpleMessageQueue.push, hi.exists_channel]

theorem step_test_empty (hi : Inv channel s) (hpc : s.pc i = .start) (hin : input i = .pop)
    (hq : queued channel s = []) :
    step channel input s i =
      { s with pc := Function.update s.pc i (.returned (some NULL_MSG)) } := by
  simp [step, hpc, hin, SimpleMessageQueue.channelEmpty, hi.exists_channel, hq]

theorem step_test (hi : Inv channel s) (hpc : s.pc i = .start) (hin : input i = .pop)
    (hq : queued channel s ≠ []) :
    step channel input s i =
      { s with pc := Function.update s.pc i .tested, testing := s.testing ++ [i] } := by
  have hempty : (queued channel s).isEmpty = false := by simpa using hq
  simp [step, hpc, hin, SimpleMessageQueue.channelEmpty, hi.exists_channel, hempty]

theorem step_count (hpc : s.pc i = .tested) :
    step channel input s i =
      { s with
        queue := s.queue.countOff
        pc := Function.update s.pc i .counted
        testing := s.testing.erase i
        owing := s.owing ++ [i] } := by
  simp only [step, hpc]

theorem step_drained (hi : Inv channel s) (hpc : s.pc i = .counted) (hq : queued channel s = []) :
    step channel input s i = { s with pc := Function.update s.pc i .failed } := by
  simp [step, hpc, SimpleMessageQueue.takeFront, hi.exists_channel, hq]

theorem step_take (hi : Inv channel s) (hpc : s.pc i = .counted) {msg : Msgdata}
    {l : List Msgdata} (hq : queued channel s = msg :: l) :
    step channel input s i =
      { s with
        queue := ⟨s.queue.msgQueue.insert (channelKey w channel) l, s.queue.msgTotal⟩
        pc := Function.update s.pc i (.returned (some msg))
        taken := s.taken ++ [(i, msg)]
        owing := s.owing.erase i } := by
  simp [step, hpc, SimpleMessageQueue.takeFront, hi.exists_channel, hq]

theorem step_done (hpc : (∃ msg, s.pc i = .returned msg) ∨ s.pc i = .failed) :
    step channel input s i = s := by
  rcases hpc with ⟨msg, hpc⟩ | hpc
  · simp only [step, hpc]
  · simp only [step, hpc]

/-! ## The invariant is kept -/

theorem inv_push (hi : Inv channel s) (hpc : s.pc i = .start) {msg : Msgdata}
    (hin : input i = .push msg) : Inv channel (step channel input s i) := by
  rw [step_push hi hpc hin]
  refine ⟨?_, ?_, hi.returned_update (by simp [hpc]) _, hi.one, ?_, hi.testing.stay (by simp [hpc]),
    hi.owing.stay (by simp [hpc])⟩
  · rw [queued_insert]
    exact AList.lookup_insert _
  · rw [queued_insert, ← List.append_assoc, ← hi.all]
  · rw [queued_insert, List.length_append, List.length_singleton]
    have := hi.size
    show s.queue.msgTotal + 1 + s.owing.length = _
    omega

theorem inv_test (hi : Inv channel s) (hpc : s.pc i = .start) (hin : input i = .pop) :
    Inv channel (step channel input s i) := by
  by_cases hq : queued channel s = []
  · rw [step_test_empty hi hpc hin hq]
    exact ⟨hi.exists_channel, hi.all, hi.returned_update (by simp [hpc]) _, hi.one, hi.size,
      hi.testing.stay (by simp [hpc]), hi.owing.stay (by simp [hpc])⟩
  · rw [step_test hi hpc hin hq]
    exact ⟨hi.exists_channel, hi.all, hi.returned_update (by simp [hpc]) _, hi.one, hi.size,
      hi.testing.join (by simp [hpc]) rfl, hi.owing.stay (by simp [hpc])⟩

theorem inv_count (hi : Inv channel s) (hpc : s.pc i = .tested) :
    Inv channel (step channel input s i) := by
  rw [step_count hpc]
  refine ⟨hi.exists_channel, hi.all, hi.returned_update (by simp [hpc]) _, hi.one, ?_,
    hi.testing.leave (by simp), hi.owing.join (by simp [hpc]) (Or.inl rfl)⟩
  -- what is counted off is owed from now on
  have := hi.size
  show s.queue.msgTotal - 1 + ((s.owing ++ [i]).length : Int) = (queued channel s).length
  rw [List.length_append, List.length_singleton]
  omega

theorem inv_take (hi : Inv channel s) (hpc : s.pc i = .counted) :
    Inv channel (step channel input s i) := by
  cases hq : queued channel s with
  | nil =>
      rw [step_drained hi hpc hq]
      exact ⟨hi.exists_channel, hi.all, hi.returned_update (by simp [hpc]) _, hi.one, hi.size,
        hi.testing.stay (by simp [hpc]), hi.owing.stay (by simp [hpc])⟩
  | cons msg l =>
      rw [step_take hi hpc hq]
      have hout := hi.not_taken (i := i) (by simp [hpc])
      have howing : i ∈ s.owing := (hi.owing.mem i).mpr (Or.inl hpc)
      refine ⟨?_, ?_, ?_, ?_, ?_, hi.testing.stay (by simp [hpc]), hi.owing.leave (by simp)⟩
      · rw [queued_insert]
        exact AList.lookup_insert _
      · rw [queued_insert, List.map_append, List.append_assoc]
        exact hi.all.trans (congrArg _ hq)
      · intro j m hj
        rcases List.mem_append.mp hj with hj | hj
        · exact hi.returned_update (by simp [hpc]) _ j m hj
        · cases List.mem_singleton.mp hj
          exact Function.update_self ..
      · rw [List.map_append, List.map_singleton, List.nodup_append_comm, List.singleton_append,
          List.nodup_cons]
        exact ⟨hout, hi.one⟩
      · -- one message less, and one call less that owes one
        have hsize := hi.size
        have hpos : 0 < s.owing.length := List.length_pos_of_mem howing
        rw [queued_insert]
        rw [hq, List.length_cons] at hsize
        show s.queue.msgTotal + ((s.owing.erase i).length : Int) = l.length
        rw [List.length_erase_of_mem howing]
        omega

theorem inv_step (s : Shared w ι) (i : ι) (hi : Inv channel s) :
    Inv channel (step channel input s i) := by
  cases hpc : s.pc i with
  | start =>
      cases hin : input i with
      | push msg => exact inv_push hi hpc hin
      | pop => exact inv_test hi hpc hin
  | tested => exact inv_count hi hpc
  | counted => exact inv_take hi hpc
  | returned msg =>
      rw [step_done (Or.inl ⟨msg, hpc⟩)]
      exact hi
  | failed =>
      rw [step_done (Or.inr hpc)]
      exact hi

/-! ## Nobody reads an empty queue -/

/-- A section moves its own call, and fails only at the lock with the channel empty. -/
theorem step_pc (input : ι → Call) (hi : Inv channel s) (i : ι) :
    ∃ p, (step channel input s i).pc = Function.update s.pc i p ∧
      (p = .failed ↔ s.pc i = .failed ∨ s.pc i = .counted ∧ queued channel s = []) := by
  cases hpc : s.pc i with
  | start =>
      cases hin : input i with
      | push msg => exact ⟨_, by rw [step_push hi hpc hin], by simp⟩
      | pop =>
          by_cases hq : queued channel s = []
          · exact ⟨_, by rw [step_test_empty hi hpc hin hq], by simp⟩
          · exact ⟨_, by rw [step_test hi hpc hin hq], by simp⟩
  | tested => exact ⟨_, by rw [step_count hpc], by simp⟩
  | counted =>
      cases hq : queued channel s with
      | nil => exact ⟨_, by rw [step_drained hi hpc hq], by simp⟩
      | cons msg l => exact ⟨_, by rw [step_take hi hpc hq], by simp⟩
  | returned msg =>
      refine ⟨s.pc i, ?_, by simp [hpc]⟩
      rw [step_done (Or.inl ⟨msg, hpc⟩), Function.update_eq_self]
  | failed =>
      refine ⟨s.pc i, ?_, by simp [hpc]⟩
      rw [step_done (Or.inr hpc), Function.update_eq_self]

omit [DecidableEq ι] in
/-- As long as no call has failed and the count is not negative, all is as it should be. -/
theorem delivers_iff (hi : Inv channel s) :
    Delivers channel s ↔ (∀ i, s.pc i ≠ .failed) ∧ s.owing.length ≤ (queued channel s).length := by
  have hsize := hi.size
  constructor
  · intro h
    have hnonneg : 0 ≤ s.queue.msgTotal := h.nonneg
    exact ⟨h.nonempty, by omega⟩
  · rintro ⟨h, hle⟩
    refine ⟨h, hi.all, hi.returned, hi.one, fun hquiet => ?_, ?_⟩
    · have howing : s.owing = [] := by
        refine List.eq_nil_iff_forall_not_mem.mpr fun j hj => ?_
        rcases (hi.owing.mem j).mp hj with hpc | hpc
        · rcases hquiet j with hq | ⟨msg, hq⟩
          · exact absurd (hq.symm.trans hpc) (by simp)
          · exact absurd (hq.symm.trans hpc) (by simp)
        · exact h j hpc
      rw [howing] at hsize
      exact (Int.add_zero _).symm.trans hsize
    · show 0 ≤ s.queue.msgTotal
      omega

omit [DecidableEq ι] in
theorem delivers_init : Delivers channel (init channel : Shared w ι) :=
  (delivers_iff inv_init).mpr ⟨fun _ => by simp [init], Nat.zero_le _⟩

/-- The messages counted off are no more than there are, after a section, exactly if they were. -/
theorem owing_step_iff (input : ι → Call) (hi : Inv channel s)
    (hle : s.owing.length ≤ (queued channel s).length) (i : ι) :
    (step channel input s i).owing.length ≤ (queued channel (step channel input s i)).length ↔
      Unclaimed channel s i := by
  unfold Unclaimed
  cases hpc : s.pc i with
  | start =>
      refine iff_of_true ?_ fun h => nomatch h
      cases hin : input i with
      | push msg =>
          rw [step_push hi hpc hin, queued_insert, List.length_append]
          exact hle.trans (Nat.le_add_right _ _)
      | pop =>
          by_cases hq : queued channel s = []
          · rw [step_test_empty hi hpc hin hq]
            exact hle
          · rw [step_test hi hpc hin hq]
            exact hle
  | tested =>
      rw [step_count hpc, forall_prop_of_true rfl]
      show (s.owing ++ [i]).length ≤ (queued channel s).length ↔ _
      rw [List.length_append, List.length_singleton, Nat.succ_le_iff]
  | counted =>
      refine iff_of_true ?_ fun h => nomatch h
      cases hq : queued channel s with
      | nil =>
          rw [step_drained hi hpc hq]
          exact hle
      | cons msg l =>
          have howing : i ∈ s.owing := (hi.owing.mem i).mpr (Or.inl hpc)
          have hpos := List.length_pos_of_mem howing
          rw [hq, List.length_cons] at hle
          rw [step_take hi hpc hq, queued_insert]
          show (s.owing.erase i).length ≤ l.length
          rw [List.length_erase_of_mem howing]
          omega
  | returned msg =>
      rw [step_done (Or.inl ⟨msg, hpc⟩)]
      exact iff_of_true hle fun h => nomatch h
  | failed =>
      rw [step_done (Or.inr hpc)]
      exact iff_of_true hle fun h => nomatch h

/-- **One section.** -/
theorem delivers_step_iff (s : Shared w ι) (i : ι) (hi : Inv channel s) (h : Delivers channel s) :
    Delivers channel (step channel input s i) ↔ Unclaimed channel s i := by
  obtain ⟨hrunning, hle⟩ := (delivers_iff hi).mp h
  rw [delivers_iff (inv_step s i hi), owing_step_iff input hi hle i]
  refine and_iff_right fun j => ?_
  rcases step_pc input hi i with ⟨p, hpc, hfailed⟩
  rw [hpc]
  by_cases hji : j = i
  · rw [hji, Function.update_self]
    intro hp
    rcases hfailed.mp hp with hf | ⟨hcounted, hq⟩
    · exact hrunning i hf
    · -- the message it has counted off is still there
      have hpos := List.length_pos_of_mem ((hi.owing.mem i).mpr (Or.inl hcounted))
      rw [hq, List.length_nil] at hle
      omega
  · rw [Function.update_of_ne hji]
    exact hrunning j

/--
**Concurrent consumers are safe exactly when none counts off a message of another.**

For any number of producers and consumers on an existing channel and any schedule of
their sections: no front of an empty queue is read, every message is returned by one
`pop`, the size is right whenever no call is on its way, and it is never negative, if and
only if whenever a consumer counts a message off, fewer have been counted off and not yet
removed than there are.
-/
theorem delivers_iff_unclaimed (channel : Option CString) (input : ι → Call)
    (schedule : List ι) :
    AllStates (step channel input) (Delivers channel) (init channel : Shared w ι) schedule ↔
      AllSteps (step channel input) (Unclaimed channel) (init channel : Shared w ι) schedule :=
  allStates_iff_allSteps inv_init delivers_init (fun s i hi => inv_step s i hi) delivers_step_iff
    schedule

/-- Two consumers find the last message; the second one reads the front of an empty queue. -/
theorem not_delivers_two_consumers :
    let input : Nat → Call := fun i => if i = 0 then .push ⟨1, [5]⟩ else .pop
    ¬ AllStates (step none input) (Delivers none) (init none : Shared 64 Nat)
      [0, 1, 2, 1, 2, 1, 2] := by
  intro input h
  have hend := allStates_iff.mp h [0, 1, 2, 1, 2, 1, 2] [] rfl
  exact hend.nonempty 2 (by decide)

/-! ## A sufficient order -/

/-- The consumers past the test are no more than the messages. -/
def Covered (channel : Option CString) (s : Shared w ι) : Prop :=
  s.testing.length + s.owing.length ≤ (queued channel s).length

theorem covered_step (s : Shared w ι) (i : ι) (h : Inv channel s ∧ Covered channel s)
    (hr : Reserved channel input s i) :
    Inv channel (step channel input s i) ∧ Covered channel (step channel input s i) := by
  rcases h with ⟨hi, hc⟩
  refine ⟨inv_step s i hi, ?_⟩
  unfold Covered at hc ⊢
  cases hpc : s.pc i with
  | start =>
      cases hin : input i with
      | push msg =>
          rw [step_push hi hpc hin, queued_insert, List.length_append, List.length_singleton]
          exact Nat.le_succ_of_le hc
      | pop =>
          by_cases hq : queued channel s = []
          · rw [step_test_empty hi hpc hin hq]
            exact hc
          · have hlt := hr hpc hin hq
            rw [step_test hi hpc hin hq]
            show (s.testing ++ [i]).length + s.owing.length ≤ (queued channel s).length
            rw [List.length_append, List.length_singleton]
            omega
  | tested =>
      have htesting : i ∈ s.testing := (hi.testing.mem i).mpr hpc
      have hpos : 0 < s.testing.length := List.length_pos_of_mem htesting
      rw [step_count hpc]
      show (s.testing.erase i).length + (s.owing ++ [i]).length ≤ (queued channel s).length
      rw [List.length_erase_of_mem htesting, List.length_append, List.length_singleton]
      omega
  | counted =>
      have howing : i ∈ s.owing := (hi.owing.mem i).mpr (Or.inl hpc)
      have hpos : 0 < s.owing.length := List.length_pos_of_mem howing
      cases hq : queued channel s with
      | nil =>
          rw [hq, List.length_nil] at hc
          omega
      | cons msg l =>
          rw [hq, List.length_cons] at hc
          rw [step_take hi hpc hq, queued_insert]
          show s.testing.length + (s.owing.erase i).length ≤ l.length
          rw [List.length_erase_of_mem howing]
          omega
  | returned msg =>
      rw [step_done (Or.inl ⟨msg, hpc⟩)]
      exact hc
  | failed =>
      rw [step_done (Or.inr hpc)]
      exact hc

/-- **No consumer is one too many if not more are let in than there are messages.** -/
theorem unclaimed_of_reserved {schedule : List ι}
    (h : AllSteps (step channel input) (Reserved channel input) (init channel : Shared w ι)
      schedule) :
    AllSteps (step channel input) (Unclaimed channel) (init channel : Shared w ι) schedule := by
  have hstates : AllStates (step channel input)
      (fun s => Inv channel s ∧ Covered channel s) (init channel : Shared w ι) schedule :=
    allStates_of_allSteps (I := fun s => Inv channel s ∧ Covered channel s)
      ⟨inv_init, Nat.zero_le _⟩ covered_step h
  refine (hstates.and_allSteps h).mono fun s i hs hpc => ?_
  rcases hs with ⟨⟨hi, hc⟩, _⟩
  have hpos := List.length_pos_of_mem ((hi.testing.mem i).mpr hpc)
  unfold Covered at hc
  omega

end QueueConsumers

end NanomsgDemo.Net

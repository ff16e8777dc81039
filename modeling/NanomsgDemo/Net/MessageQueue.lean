import Mathlib.Algebra.Group.Int.Defs
import Mathlib.Algebra.GroupWithZero.Nat
import Mathlib.Data.List.AList
import NanomsgDemo.Lib.Runs
import NanomsgDemo.Net.CString
import NanomsgDemo.Net.SocketCore

/-!
# The message queue

`libnet/message_queue.cpp`: messages in channels. A channel is a `std::queue` in an
`unordered_map` under the hash of its name, the default channel (null) under 0.
`createChannel` makes the entry of the default channel; of a named channel it makes
none that is not there already. `push` and `pop` look the entry up with `at`.

`Channel` is one name together with the record of what was pushed to it and not
popped again. Only key 0 ever exists, which decides when that channel is a queue.
-/

namespace NanomsgDemo.Net

open Runs

/-- The value of a `Msgdata`: its type and its `mtext_l` bytes. -/
structure Msgdata where
  mtype : Int
  mtext : List Byte
  deriving DecidableEq, Repr

/-- `NULL_MSG`. -/
def NULL_MSG : Msgdata := ⟨0, []⟩

/-! ## The hash of a name -/

section Hash

variable (w : Nat)

/-- A `char`, which is signed, as a `long`. -/
def charToLong (b : Byte) : BitVec w := b.toBitVec.signExtend w

/-- One pass of the loop of `lw_hash_code`: `n` and `ret` afterwards. -/
def hashStep (s : BitVec w × BitVec w) (c : Byte) : BitVec w × BitVec w :=
  let (n, ret) := s
  let v := n ||| charToLong w c
  let n := n + 0x100#w
  let r := (((v >>> 2) ^^^ v) &&& 0x0f#w).toNat
  let ret := (ret <<< r) ||| (ret >>> (32 - r))
  let ret := ret &&& 0xFFFFFFFF#w
  (n, ret ^^^ (v * v))

/-- `lw_hash_code` of a string that is not null, with a `long` of `w` bits. -/
def lwHashCode (c : CString) : BitVec w :=
  if c.bytes = [] then 0
  else
    let ret := (c.bytes.foldl (hashStep w) (0x100#w, 0#w)).2
    (ret >>> 16) ^^^ ret

/-- The key of a channel name, which may be null. -/
def channelKey : Option CString → BitVec w
  | none => 0
  | some c => lwHashCode w c

end Hash

/-- `SimpleMessageQueue`. -/
structure SimpleMessageQueue (w : Nat) where
  msgQueue : AList fun _ : BitVec w => List Msgdata
  msgTotal : Int

namespace SimpleMessageQueue

variable {w : Nat}

/-- `SimpleMessageQueue::SimpleMessageQueue`. -/
def init : SimpleMessageQueue w where
  msgQueue := ∅
  msgTotal := 0

/-- `_msg_queue[key];` -/
def index (q : SimpleMessageQueue w) (key : BitVec w) : SimpleMessageQueue w :=
  if key ∈ q.msgQueue then q else { q with msgQueue := q.msgQueue.insert key [] }

/-- `SimpleMessageQueue::createChannel`. -/
def createChannel (q : SimpleMessageQueue w) (channel : Option CString) :
    SimpleMessageQueue w × Int32 :=
  match channel with
  | some c =>
      let hashcode := lwHashCode w c
      if hashcode ∈ q.msgQueue then (q.index hashcode, 0) else (q, 0)
  | none => (q.index 0, 0)

/-- `SimpleMessageQueue::releaseChannel`. -/
def releaseChannel (q : SimpleMessageQueue w) (_channel : Option CString) :
    SimpleMessageQueue w := q

/-- `SimpleMessageQueue::empty`. -/
def empty (q : SimpleMessageQueue w) : Bool := q.msgTotal = 0

/-- `SimpleMessageQueue::size`. -/
def size (q : SimpleMessageQueue w) : Int := q.msgTotal

/-- `SimpleMessageQueue::push`; `none` if `at` throws. -/
def push (q : SimpleMessageQueue w) (msg : Msgdata) (channel : Option CString) :
    Option (SimpleMessageQueue w) :=
  match q.msgQueue.lookup (channelKey w channel) with
  | none => none
  | some l =>
      some { msgQueue := q.msgQueue.insert (channelKey w channel) (l ++ [msg])
             msgTotal := q.msgTotal + 1 }

/-- `SimpleMessageQueue::pop`; `none` if `at` throws. -/
def pop (q : SimpleMessageQueue w) (channel : Option CString) :
    Option (SimpleMessageQueue w × Msgdata) :=
  match q.msgQueue.lookup (channelKey w channel) with
  | none => none
  | some [] => some (q, NULL_MSG)
  | some (msg :: l) =>
      some ({ msgQueue := q.msgQueue.insert (channelKey w channel) l
              msgTotal := q.msgTotal - 1 }, msg)

end SimpleMessageQueue

/-! ## One channel among others -/

/-- The queue, what is pending on one channel, and counts of all pushes and pops of a message. -/
structure Channel (w : Nat) where
  queue : SimpleMessageQueue w
  pending : List Msgdata
  pushes : Nat
  pops : Nat
  /-- `createChannel` has been called with null. -/
  defaulted : Bool

namespace Channel

variable {w : Nat}

/-- A call of one of the methods. -/
inductive Call where
  | createChannel (channel : Option CString)
  | releaseChannel (channel : Option CString)
  | push (msg : Msgdata) (channel : Option CString)
  | pop (channel : Option CString)
  deriving DecidableEq

def init : Channel w where
  queue := .init
  pending := []
  pushes := 0
  pops := 0
  defaulted := false

/-- What a call does; an exception leaves everything as it was. -/
def step (name : Option CString) (s : Channel w) : Call → Channel w
  | .createChannel channel =>
      { s with
        queue := (s.queue.createChannel channel).1
        defaulted := s.defaulted || channel.isNone }
  | .releaseChannel channel => { s with queue := s.queue.releaseChannel channel }
  | .push msg channel =>
      match s.queue.push msg channel with
      | none => s
      | some queue =>
          { s with
            queue
            pending := if channel = name then s.pending ++ [msg] else s.pending
            pushes := s.pushes + 1 }
  | .pop channel =>
      match s.queue.pop channel with
      | none => s
      | some (queue, _) =>
          { s with
            queue
            pending := if channel = name then s.pending.tail else s.pending
            pops := if s.queue.msgQueue.lookup (channelKey w channel) = some [] then s.pops
              else s.pops + 1 }

/-- The calls on the channel itself go through, and `pop` returns what has been pending longest. -/
def Accepts (name : Option CString) (s : Channel w) : Call → Prop
  | .push msg channel => channel = name → (s.queue.push msg channel).isSome = true
  | .pop channel => channel = name →
      (s.queue.pop channel).map Prod.snd = some (s.pending.headD NULL_MSG)
  | _ => True

/-- What is queued for the channel is what is pending on it, and the size is right. -/
def Faithful (name : Option CString) (s : Channel w) : Prop :=
  (∀ l, s.queue.msgQueue.lookup (channelKey w name) = some l → l = s.pending) ∧
    s.queue.size = s.pushes - s.pops

/-- The channel has the key of the default channel, which has been created. -/
def Open (name : Option CString) (s : Channel w) : Prop :=
  channelKey w name = 0 ∧ s.defaulted = true

/--
The channel is open when it is used. Through another name with its key nothing is
pushed while it is open, and nothing popped while a message is pending on it.
-/
def Undisturbed (name : Option CString) (s : Channel w) : Call → Prop
  | .push _ channel =>
      if channel = name then s.Open name
      else channelKey w channel = channelKey w name → ¬ s.Open name
  | .pop channel =>
      if channel = name then s.Open name
      else channelKey w channel = channelKey w name → s.pending = []
  | _ => True

/-- Only key 0 exists, once the default channel has been created. -/
structure Inv (name : Option CString) (s : Channel w) : Prop where
  keys : ∀ key, key ∈ s.queue.msgQueue ↔ key = 0 ∧ s.defaulted = true
  size : s.queue.size = s.pushes - s.pops
  closed : ¬ s.Open name → s.pending = []

variable {name channel : Option CString} {s : Channel w} {l : List Msgdata}

theorem inv_init : (init : Channel w).Inv name where
  keys := by
    intro key
    simp [init, SimpleMessageQueue.init]
  size := rfl
  closed := fun _ => rfl

theorem faithful_init : (init : Channel w).Faithful name := by
  refine ⟨fun l h => ?_, rfl⟩
  exact absurd h (by simp [init, SimpleMessageQueue.init])

/-! ## What the calls find -/

/-- There is an entry for a name exactly if the name is open. -/
theorem Inv.open_iff (hi : s.Inv name) :
    s.Open channel ↔ ∃ l, s.queue.msgQueue.lookup (channelKey w channel) = some l := by
  rw [Open, ← hi.keys, ← AList.lookup_isSome, Option.isSome_iff_exists]

theorem Inv.lookup_none (hi : s.Inv name) (hc : ¬ s.Open channel) :
    s.queue.msgQueue.lookup (channelKey w channel) = none := by
  rw [AList.lookup_eq_none, hi.keys]
  exact hc

theorem Inv.lookup_own (hi : s.Inv name) (hf : s.Faithful name) (ho : s.Open name) :
    s.queue.msgQueue.lookup (channelKey w name) = some s.pending := by
  rcases hi.open_iff.mp ho with ⟨l, hl⟩
  rw [hl, hf.1 l hl]

/-- Names with one key are open together. -/
theorem open_congr (hkey : channelKey w channel = channelKey w name) :
    s.Open channel ↔ s.Open name := by
  unfold Open
  rw [hkey]

theorem push_eq_none (h : s.queue.msgQueue.lookup (channelKey w channel) = none) (msg : Msgdata) :
    s.queue.push msg channel = none := by
  unfold SimpleMessageQueue.push
  rw [h]

theorem push_eq_some (h : s.queue.msgQueue.lookup (channelKey w channel) = some l)
    (msg : Msgdata) :
    s.queue.push msg channel =
      some ⟨s.queue.msgQueue.insert (channelKey w channel) (l ++ [msg]),
        s.queue.msgTotal + 1⟩ := by
  unfold SimpleMessageQueue.push
  rw [h]

theorem pop_eq_none (h : s.queue.msgQueue.lookup (channelKey w channel) = none) :
    s.queue.pop channel = none := by
  unfold SimpleMessageQueue.pop
  rw [h]

theorem pop_eq_empty (h : s.queue.msgQueue.lookup (channelKey w channel) = some []) :
    s.queue.pop channel = some (s.queue, NULL_MSG) := by
  unfold SimpleMessageQueue.pop
  rw [h]

theorem pop_eq_some {msg : Msgdata}
    (h : s.queue.msgQueue.lookup (channelKey w channel) = some (msg :: l)) :
    s.queue.pop channel =
      some (⟨s.queue.msgQueue.insert (channelKey w channel) l, s.queue.msgTotal - 1⟩, msg) := by
  unfold SimpleMessageQueue.pop
  rw [h]

/-! ## What a call does -/

theorem step_push_none (h : s.queue.msgQueue.lookup (channelKey w channel) = none)
    (msg : Msgdata) : s.step name (.push msg channel) = s := by
  simp only [step, push_eq_none h]

theorem step_push_some (name : Option CString)
    (h : s.queue.msgQueue.lookup (channelKey w channel) = some l)
    (msg : Msgdata) :
    s.step name (.push msg channel) =
      { s with
        queue := ⟨s.queue.msgQueue.insert (channelKey w channel) (l ++ [msg]),
          s.queue.msgTotal + 1⟩
        pending := if channel = name then s.pending ++ [msg] else s.pending
        pushes := s.pushes + 1 } := by
  simp only [step, push_eq_some h]

theorem step_pop_none (h : s.queue.msgQueue.lookup (channelKey w channel) = none) :
    s.step name (.pop channel) = s := by
  simp only [step, pop_eq_none h]

theorem step_pop_empty (name : Option CString)
    (h : s.queue.msgQueue.lookup (channelKey w channel) = some []) :
    s.step name (.pop channel) =
      { s with pending := if channel = name then s.pending.tail else s.pending } := by
  simp only [step, pop_eq_empty h, h, if_true]

theorem step_pop_some (name : Option CString) {msg : Msgdata}
    (h : s.queue.msgQueue.lookup (channelKey w channel) = some (msg :: l)) :
    s.step name (.pop channel) =
      { s with
        queue := ⟨s.queue.msgQueue.insert (channelKey w channel) l, s.queue.msgTotal - 1⟩
        pending := if channel = name then s.pending.tail else s.pending
        pops := s.pops + 1 } := by
  have hne : s.queue.msgQueue.lookup (channelKey w channel) ≠ some [] := by simp [h]
  simp only [step, pop_eq_some h, if_neg hne]

/-- An entry that is written over stays, and no other comes. -/
theorem mem_insert_of_lookup {q : SimpleMessageQueue w} {key k : BitVec w} {l' : List Msgdata}
    (h : q.msgQueue.lookup key = some l) : k ∈ q.msgQueue.insert key l' ↔ k ∈ q.msgQueue := by
  have hkey : key ∈ q.msgQueue := AList.lookup_isSome.mp (by rw [h]; rfl)
  rw [AList.mem_insert]
  constructor
  · intro hk
    rcases hk with hk | hk
    · exact hk ▸ hkey
    · exact hk
  · exact Or.inr

/-- `createChannel` never makes a named channel. -/
theorem createChannel_some (q : SimpleMessageQueue w) (c : CString) :
    (q.createChannel (some c)).1 = q := by
  unfold SimpleMessageQueue.createChannel SimpleMessageQueue.index
  dsimp only
  split
  · rfl
  · rfl

theorem createChannel_size (q : SimpleMessageQueue w) (channel : Option CString) :
    (q.createChannel channel).1.size = q.size := by
  cases channel with
  | none =>
      show (q.index 0).size = q.size
      unfold SimpleMessageQueue.index
      split
      · rfl
      · rfl
  | some c => rw [createChannel_some]

theorem mem_createChannel_none (q : SimpleMessageQueue w) (key : BitVec w) :
    key ∈ (q.createChannel none).1.msgQueue ↔ key = 0 ∨ key ∈ q.msgQueue := by
  show key ∈ (q.index 0).msgQueue ↔ _
  unfold SimpleMessageQueue.index
  split
  · rename_i h
    constructor
    · exact Or.inr
    · intro hk
      rcases hk with hk | hk
      · exact hk ▸ h
      · exact hk
  · exact AList.mem_insert _

/-- What is queued in a channel does not change when channels are created. -/
theorem lookup_createChannel (q : SimpleMessageQueue w) (channel : Option CString)
    {key : BitVec w} (h : (q.createChannel channel).1.msgQueue.lookup key = some l) :
    q.msgQueue.lookup key = some l ∨ q.msgQueue.lookup key = none ∧ l = [] := by
  cases channel with
  | some c =>
      rw [createChannel_some] at h
      exact Or.inl h
  | none =>
      have h : (q.index 0).msgQueue.lookup key = some l := h
      unfold SimpleMessageQueue.index at h
      split at h
      · exact Or.inl h
      · rename_i hnew
        by_cases hkey : key = 0
        · subst hkey
          rw [AList.lookup_insert] at h
          exact Or.inr ⟨AList.lookup_eq_none.mpr hnew, (Option.some.inj h).symm⟩
        · exact Or.inl ((AList.lookup_insert_ne hkey).symm.trans h)

/-! ## The invariant is kept -/

theorem inv_createChannel (hi : s.Inv name) (channel : Option CString) :
    (s.step name (.createChannel channel)).Inv name where
  keys := by
    intro key
    cases channel with
    | none =>
        show key ∈ (s.queue.createChannel none).1.msgQueue ↔ key = 0 ∧ (s.defaulted || true) = true
        rw [mem_createChannel_none, hi.keys, Bool.or_true]
        tauto
    | some c =>
        show key ∈ (s.queue.createChannel (some c)).1.msgQueue ↔
          key = 0 ∧ (s.defaulted || false) = true
        rw [createChannel_some, hi.keys, Bool.or_false]
  size := (createChannel_size s.queue channel).trans hi.size
  closed := by
    intro hc
    refine hi.closed fun ho => hc ⟨ho.1, ?_⟩
    show (s.defaulted || channel.isNone) = true
    rw [ho.2]
    rfl

theorem inv_push (hi : s.Inv name) (msg : Msgdata) (channel : Option CString) :
    (s.step name (.push msg channel)).Inv name := by
  cases hl : s.queue.msgQueue.lookup (channelKey w channel) with
  | none =>
      rw [step_push_none hl]
      exact hi
  | some l =>
      rw [step_push_some name hl]
      refine ⟨fun key => (mem_insert_of_lookup hl).trans (hi.keys key), ?_, ?_⟩
      · have hsize : s.queue.msgTotal = s.pushes - s.pops := hi.size
        show s.queue.msgTotal + 1 = ((s.pushes + 1 : Nat) : Int) - s.pops
        omega
      · intro hc
        -- the name is not open, but the one that was pushed to is
        have hne : channel ≠ name := by
          intro hcn
          subst hcn
          exact hc (hi.open_iff.mpr ⟨l, hl⟩)
        show (if channel = name then s.pending ++ [msg] else s.pending) = []
        rw [if_neg hne]
        exact hi.closed hc

theorem inv_pop (hi : s.Inv name) (channel : Option CString) :
    (s.step name (.pop channel)).Inv name := by
  have hclosed : ¬ s.Open name → (if channel = name then s.pending.tail else s.pending) = [] := by
    intro hc
    rw [hi.closed hc]
    split
    · rfl
    · rfl
  cases hl : s.queue.msgQueue.lookup (channelKey w channel) with
  | none =>
      rw [step_pop_none hl]
      exact hi
  | some l =>
      cases l with
      | nil =>
          rw [step_pop_empty name hl]
          exact ⟨hi.keys, hi.size, hclosed⟩
      | cons msg l =>
          rw [step_pop_some name hl]
          refine ⟨fun key => (mem_insert_of_lookup hl).trans (hi.keys key), ?_, hclosed⟩
          have hsize : s.queue.msgTotal = s.pushes - s.pops := hi.size
          show s.queue.msgTotal - 1 = (s.pushes : Int) - ((s.pops + 1 : Nat) : Int)
          omega

theorem inv_step (s : Channel w) (c : Call) (hi : s.Inv name) : (s.step name c).Inv name := by
  cases c with
  | createChannel channel => exact inv_createChannel hi channel
  | releaseChannel channel => exact ⟨hi.keys, hi.size, hi.closed⟩
  | push msg channel => exact inv_push hi msg channel
  | pop channel => exact inv_pop hi channel

/-! ## When the channel is a queue -/

/-- The content of an entry is known; the entry of the channel must be what is pending. -/
theorem faithful_insert_iff {t : Channel w} {key : BitVec w} {l' : List Msgdata} {n : Int}
    (ht : t.queue = ⟨s.queue.msgQueue.insert key l', n⟩)
    (hsize : t.queue.size = t.pushes - t.pops) :
    t.Faithful name ↔
      if channelKey w name = key then l' = t.pending
      else ∀ l, s.queue.msgQueue.lookup (channelKey w name) = some l → l = t.pending := by
  unfold Faithful
  rw [ht] at hsize ⊢
  split
  · rename_i hkey
    subst hkey
    constructor
    · intro h
      exact h.1 l' (AList.lookup_insert _)
    · intro h
      refine ⟨fun l hl => ?_, hsize⟩
      rw [← h]
      exact (Option.some.inj ((AList.lookup_insert _).symm.trans hl)).symm
  · rename_i hkey
    constructor
    · intro h l hl
      exact h.1 l ((AList.lookup_insert_ne hkey).trans hl)
    · intro h
      exact ⟨fun l hl => h l ((AList.lookup_insert_ne hkey).symm.trans hl), hsize⟩

theorem push_own_iff (hi : s.Inv name) (hf : s.Faithful name) (msg : Msgdata) :
    (s.queue.push msg name).isSome = true ∧ (s.step name (.push msg name)).Faithful name ↔
      s.Open name := by
  constructor
  · intro h
    by_contra hc
    have := h.1
    rw [push_eq_none (hi.lookup_none hc)] at this
    exact absurd this (by simp)
  · intro ho
    have hl := hi.lookup_own hf ho
    have hstep := step_push_some name hl msg
    refine ⟨by rw [push_eq_some hl]; rfl, ?_⟩
    rw [faithful_insert_iff (congrArg Channel.queue hstep) (inv_push hi msg name).size,
      if_pos rfl, hstep]
    exact (if_pos rfl).symm

/-- A push through another name goes into the channel if it has its key and is open. -/
theorem push_other_iff (hi : s.Inv name) (hf : s.Faithful name) (msg : Msgdata)
    (hne : channel ≠ name) :
    (s.step name (.push msg channel)).Faithful name ↔
      (channelKey w channel = channelKey w name → ¬ s.Open name) := by
  cases hl : s.queue.msgQueue.lookup (channelKey w channel) with
  | none =>
      rw [step_push_none hl]
      refine ⟨fun _ hkey ho => ?_, fun _ => hf⟩
      rcases hi.open_iff.mp ((open_congr hkey).mpr ho) with ⟨l, hl'⟩
      rw [hl] at hl'
      exact absurd hl' (by simp)
  | some l =>
      have hstep := step_push_some name hl msg
      have hpending : (s.step name (.push msg channel)).pending = s.pending := by
        rw [hstep]
        exact if_neg hne
      rw [faithful_insert_iff (congrArg Channel.queue hstep) (inv_push hi msg channel).size,
        hpending]
      split
      · rename_i hkey
        have ho : s.Open name := (open_congr hkey.symm).mp (hi.open_iff.mpr ⟨l, hl⟩)
        have hlp : l = s.pending := hf.1 l (hkey ▸ hl)
        constructor
        · intro h
          -- one message too many
          rw [← hlp] at h
          exact absurd h (by simp)
        · intro h
          exact absurd ho (h hkey.symm)
      · rename_i hkey
        exact ⟨fun _ hk => absurd hk.symm hkey, fun _ => hf.1⟩

theorem pop_own_iff (hi : s.Inv name) (hf : s.Faithful name) :
    (s.queue.pop name).map Prod.snd = some (s.pending.headD NULL_MSG) ∧
        (s.step name (.pop name)).Faithful name ↔
      s.Open name := by
  constructor
  · intro h
    by_contra hc
    have := h.1
    rw [pop_eq_none (hi.lookup_none hc)] at this
    exact absurd this (by simp)
  · intro ho
    have hl := hi.lookup_own hf ho
    cases hp : s.pending with
    | nil =>
        rw [hp] at hl
        have hstep := step_pop_empty name hl
        refine ⟨by rw [pop_eq_empty hl]; rfl, ?_⟩
        rw [if_pos rfl, hp] at hstep
        rw [hstep]
        refine ⟨fun l h => ?_, hf.2⟩
        rw [hf.1 l h, hp]
        rfl
    | cons msg l =>
        rw [hp] at hl
        have hstep := step_pop_some name hl
        refine ⟨by rw [pop_eq_some hl]; rfl, ?_⟩
        rw [faithful_insert_iff (congrArg Channel.queue hstep) (inv_pop hi name).size,
          if_pos rfl, hstep]
        show l = if name = name then s.pending.tail else s.pending
        rw [if_pos rfl, hp]
        rfl

/-- A pop through another name takes a message of the channel if it has its key. -/
theorem pop_other_iff (hi : s.Inv name) (hf : s.Faithful name) (hne : channel ≠ name) :
    (s.step name (.pop channel)).Faithful name ↔
      (channelKey w channel = channelKey w name → s.pending = []) := by
  cases hl : s.queue.msgQueue.lookup (channelKey w channel) with
  | none =>
      rw [step_pop_none hl]
      refine ⟨fun _ hkey => hi.closed fun ho => ?_, fun _ => hf⟩
      rcases hi.open_iff.mp ((open_congr hkey).mpr ho) with ⟨l, hl'⟩
      rw [hl] at hl'
      exact absurd hl' (by simp)
  | some l =>
      cases l with
      | nil =>
          have hstep := step_pop_empty name hl
          rw [if_neg hne] at hstep
          rw [hstep]
          exact ⟨fun _ hkey => (hf.1 [] (hkey ▸ hl)).symm, fun _ => hf⟩
      | cons msg l =>
          have hstep := step_pop_some name hl
          have hpending : (s.step name (.pop channel)).pending = s.pending := by
            rw [hstep]
            exact if_neg hne
          rw [faithful_insert_iff (congrArg Channel.queue hstep) (inv_pop hi channel).size,
            hpending]
          split
          · rename_i hkey
            have hlp : msg :: l = s.pending := hf.1 _ (hkey ▸ hl)
            rw [← hlp]
            constructor
            · intro h
              exact absurd h (by simp)
            · intro h
              exact absurd (h hkey.symm) (by simp)
          · rename_i hkey
            exact ⟨fun _ hk => absurd hk.symm hkey, fun _ => hf.1⟩

/-- **One call.** -/
theorem faithful_step_iff (s : Channel w) (c : Call) (hi : s.Inv name) (hf : s.Faithful name) :
    s.Accepts name c ∧ (s.step name c).Faithful name ↔ s.Undisturbed name c := by
  cases c with
  | createChannel channel =>
      refine ⟨fun _ => trivial, fun _ => ⟨trivial, fun l hl => ?_, ?_⟩⟩
      · rcases lookup_createChannel s.queue channel hl with hold | ⟨hnone, hnil⟩
        · exact hf.1 l hold
        · -- the entry is new, so nothing could have been pushed before
          have hc : ¬ s.Open name := by
            intro ho
            rcases hi.open_iff.mp ho with ⟨l', hl'⟩
            rw [hnone] at hl'
            exact absurd hl' (by simp)
          exact hnil.trans (hi.closed hc).symm
      · exact (createChannel_size s.queue channel).trans hf.2
  | releaseChannel channel => exact ⟨fun _ => trivial, fun _ => ⟨trivial, hf⟩⟩
  | push msg channel =>
      by_cases hne : channel = name
      · subst hne
        have hiff := push_own_iff hi hf msg
        simp only [Accepts, Undisturbed, if_true, true_imp_iff]
        exact hiff
      · simp only [Accepts, Undisturbed, hne, if_false, false_imp_iff, true_and]
        exact push_other_iff hi hf msg hne
  | pop channel =>
      by_cases hne : channel = name
      · subst hne
        have hiff := pop_own_iff hi hf
        simp only [Accepts, Undisturbed, if_true, true_imp_iff]
        exact hiff
      · simp only [Accepts, Undisturbed, hne, if_false, false_imp_iff, true_and]
        exact pop_other_iff hi hf hne

/--
**A channel is a queue exactly as long as it is the default channel, undisturbed.**

For every name and every run that starts with `createChannel` of it: all pushes and
pops on it go through, the pops return what was pushed in order, and the size is
right, if and only if the channel has key 0 and has been created as the default one
whenever it is used, and no other name with its key is used meanwhile.
-/
theorem fifo_iff_undisturbed (name : Option CString) (calls : List Call) :
    AllSteps (step name) (Accepts name) (init : Channel w) (.createChannel name :: calls) ∧
        AllStates (step name) (Faithful name) (init : Channel w) (.createChannel name :: calls) ↔
      AllSteps (step name) (Undisturbed name) (init : Channel w) (.createChannel name :: calls) :=
  allSteps_and_allStates_iff inv_init faithful_init (fun s c hi => inv_step s c hi)
    faithful_step_iff _

/-- The name `a`. -/
def nameA : CString := ⟨[0x61], by simp⟩

/-- A named channel is not created, so that the first push to it throws. -/
theorem not_fifo_named :
    ¬ (AllSteps (step (some nameA)) (Accepts (some nameA)) (init : Channel 64)
          [.createChannel (some nameA), .push ⟨1, [5]⟩ (some nameA)] ∧
        AllStates (step (some nameA)) (Faithful (some nameA)) (init : Channel 64)
          [.createChannel (some nameA), .push ⟨1, [5]⟩ (some nameA)]) := by
  intro h
  have hpush := h.1.2.1 rfl
  exact absurd hpush (by decide)

end Channel

end NanomsgDemo.Net

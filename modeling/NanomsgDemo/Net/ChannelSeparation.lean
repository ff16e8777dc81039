import NanomsgDemo.Net.MessageQueue

/-!
# Channels that do not see each other

A channel is known to the message queue only by the hash of its name, with 0 for the
default channel. Two names are separate if, whatever is pushed and popped through the
first, the pops through the second return what they would return without it: the calls
through the first name can be left out of the run.

`separate_iff` says that this is so exactly when the names have different keys. The
default channel and the empty name have the same.
-/

namespace NanomsgDemo.Net

namespace SimpleMessageQueue

open Channel (Call)

variable {w : Nat}

/-- The queue after a call; an exception leaves it as it was. -/
def after (q : SimpleMessageQueue w) : Call → SimpleMessageQueue w
  | .createChannel channel => (q.createChannel channel).1
  | .releaseChannel channel => q.releaseChannel channel
  | .push msg channel => (q.push msg channel).getD q
  | .pop channel => ((q.pop channel).map Prod.fst).getD q

/-- What the pops through the name return in a run; `none` is an exception. -/
def returned (name : Option CString) :
    SimpleMessageQueue w → List Call → List (Option Msgdata)
  | _, [] => []
  | q, call :: calls =>
      (if call = .pop name then [(q.pop name).map Prod.snd] else []) ++
        returned name (q.after call) calls

/-- The call pushes or pops through the name. -/
def through (name : Option CString) : Call → Bool
  | .push _ channel => channel = name
  | .pop channel => channel = name
  | _ => false

/--
What the pops through `d` return does not depend on the pushes and pops through `c`,
whatever queues there are.
-/
def Separate (w : Nat) (c d : Option CString) : Prop :=
  ∀ (q : SimpleMessageQueue w) (calls : List Call),
    q.returned d calls = q.returned d (calls.filter fun call => ¬ through c call)

variable {q q' : SimpleMessageQueue w} {key : BitVec w} {c d : Option CString}

/-! ## What is under a key -/

theorem lookup_push (q : SimpleMessageQueue w) (msg : Msgdata) (channel : Option CString) :
    ((q.push msg channel).getD q).msgQueue.lookup key =
      if key = channelKey w channel then (q.msgQueue.lookup key).map (· ++ [msg])
      else q.msgQueue.lookup key := by
  unfold push
  by_cases hkey : key = channelKey w channel
  · subst hkey
    rw [if_pos rfl]
    cases hl : q.msgQueue.lookup (channelKey w channel) with
    | none => exact hl
    | some l => exact AList.lookup_insert _
  · rw [if_neg hkey]
    cases q.msgQueue.lookup (channelKey w channel) with
    | none => rfl
    | some l => exact AList.lookup_insert_ne hkey

theorem lookup_pop (q : SimpleMessageQueue w) (channel : Option CString) :
    (((q.pop channel).map Prod.fst).getD q).msgQueue.lookup key =
      if key = channelKey w channel then (q.msgQueue.lookup key).map List.tail
      else q.msgQueue.lookup key := by
  unfold pop
  by_cases hkey : key = channelKey w channel
  · subst hkey
    rw [if_pos rfl]
    cases hl : q.msgQueue.lookup (channelKey w channel) with
    | none => exact hl
    | some l =>
        cases l with
        | nil => exact hl
        | cons msg l => exact AList.lookup_insert _
  · rw [if_neg hkey]
    cases q.msgQueue.lookup (channelKey w channel) with
    | none => rfl
    | some l =>
        cases l with
        | nil => rfl
        | cons msg l => exact AList.lookup_insert_ne hkey

theorem lookup_index (q : SimpleMessageQueue w) (k : BitVec w) :
    (q.index k).msgQueue.lookup key =
      if key = k then some ((q.msgQueue.lookup key).getD []) else q.msgQueue.lookup key := by
  unfold index
  by_cases hk : key = k
  · subst hk
    rw [if_pos rfl]
    split
    · rename_i hmem
      obtain ⟨l, hl⟩ := Option.isSome_iff_exists.mp (AList.lookup_isSome.mpr hmem)
      rw [hl]
      rfl
    · rename_i hmem
      rw [AList.lookup_eq_none.mpr hmem]
      exact AList.lookup_insert _
  · rw [if_neg hk]
    split
    · rfl
    · exact AList.lookup_insert_ne hk

/-- A call through a name with another key leaves the key alone. -/
theorem lookup_after_of_ne (q : SimpleMessageQueue w) (hne : key ≠ channelKey w c) {call : Call}
    (h : through c call = true) : (q.after call).msgQueue.lookup key = q.msgQueue.lookup key := by
  cases call with
  | createChannel channel => exact absurd h (by simp [through])
  | releaseChannel channel => exact absurd h (by simp [through])
  | push msg channel =>
      have hch : channel = c := of_decide_eq_true h
      subst hch
      exact (lookup_push q msg channel).trans (if_neg hne)
  | pop channel =>
      have hch : channel = c := of_decide_eq_true h
      subst hch
      exact (lookup_pop q channel).trans (if_neg hne)

/-- What is under a key after a call depends on nothing but what was there before. -/
theorem lookup_after_congr (h : q.msgQueue.lookup key = q'.msgQueue.lookup key) (call : Call) :
    (q.after call).msgQueue.lookup key = (q'.after call).msgQueue.lookup key := by
  cases call with
  | createChannel channel =>
      cases channel with
      | none =>
          show (q.index 0).msgQueue.lookup key = (q'.index 0).msgQueue.lookup key
          rw [lookup_index, lookup_index, h]
      | some c =>
          show (q.createChannel (some c)).1.msgQueue.lookup key =
            (q'.createChannel (some c)).1.msgQueue.lookup key
          rw [Channel.createChannel_some, Channel.createChannel_some, h]
  | releaseChannel channel => exact h
  | push msg channel =>
      show ((q.push msg channel).getD q).msgQueue.lookup key =
        ((q'.push msg channel).getD q').msgQueue.lookup key
      rw [lookup_push, lookup_push, h]
  | pop channel =>
      show (((q.pop channel).map Prod.fst).getD q).msgQueue.lookup key =
        (((q'.pop channel).map Prod.fst).getD q').msgQueue.lookup key
      rw [lookup_pop, lookup_pop, h]

/-- What a pop returns is the first message under its key, if there is one. -/
theorem pop_eq {l : List Msgdata} (h : q.msgQueue.lookup (channelKey w d) = some l) :
    (q.pop d).map Prod.snd = some (l.headD NULL_MSG) := by
  unfold pop
  rw [h]
  cases l with
  | nil => rfl
  | cons msg l => rfl

theorem pop_congr (h : q.msgQueue.lookup (channelKey w d) = q'.msgQueue.lookup (channelKey w d)) :
    (q.pop d).map Prod.snd = (q'.pop d).map Prod.snd := by
  cases hl : q'.msgQueue.lookup (channelKey w d) with
  | none =>
      unfold pop
      rw [h, hl]
  | some l => rw [pop_eq hl, pop_eq (h.trans hl)]

/-! ## Separation -/

/-- Calls through a name with another key can be left out. -/
theorem returned_filter (hne : channelKey w d ≠ channelKey w c) (calls : List Call)
    (h : q.msgQueue.lookup (channelKey w d) = q'.msgQueue.lookup (channelKey w d)) :
    q.returned d calls = q'.returned d (calls.filter fun call => ¬ through c call) := by
  induction calls generalizing q q' with
  | nil => rfl
  | cons call calls ih =>
      by_cases hthrough : through c call = true
      · -- the call is left out on the right
        have hown : call ≠ .pop d := by
          rintro rfl
          have hdc : d = c := of_decide_eq_true hthrough
          exact hne (hdc ▸ rfl)
        rw [List.filter_cons_of_neg (by simp [hthrough]), returned, if_neg hown, List.nil_append]
        exact ih ((lookup_after_of_ne q hne hthrough).trans h)
      · rw [List.filter_cons_of_pos (by simp [hthrough]), returned, returned, pop_congr h]
        exact congrArg _ (ih (lookup_after_congr h call))

/-- With the same key, what is pushed through one name is popped through the other. -/
theorem not_separate_of_eq (hkey : channelKey w c = channelKey w d) : ¬ Separate w c d := by
  intro h
  let q : SimpleMessageQueue w := { msgQueue := AList.insert (channelKey w d) [] ∅, msgTotal := 0 }
  have hl : q.msgQueue.lookup (channelKey w d) = some [] := AList.lookup_insert _
  have hboth := h q [.push ⟨1, []⟩ c, .pop d]
  have hpushed : (q.after (.push ⟨1, []⟩ c)).msgQueue.lookup (channelKey w d) =
      some [⟨1, []⟩] := by
    show ((q.push ⟨1, []⟩ c).getD q).msgQueue.lookup (channelKey w d) = _
    rw [lookup_push, if_pos hkey.symm, hl]
    rfl
  have hfull : q.returned d [.push ⟨1, []⟩ c, .pop d] = [some ⟨1, []⟩] := by
    simp [returned, pop_eq hpushed]
  rw [hfull] at hboth
  by_cases hcd : d = c
  · -- then the pop is left out as well
    simp [through, hcd, returned] at hboth
  · simp [through, hcd, returned, pop_eq hl, NULL_MSG] at hboth

/-- **Two channels are separate exactly when their names have different keys.** -/
theorem separate_iff (c d : Option CString) :
    Separate w c d ↔ channelKey w c ≠ channelKey w d := by
  refine ⟨fun h hkey => not_separate_of_eq hkey h, ?_⟩
  intro hne q calls
  exact returned_filter hne.symm calls rfl

/-- The empty name. -/
def emptyName : Option CString := some ⟨[], by simp⟩

/-- A queue on which the default channel has been created. -/
def defaulted : SimpleMessageQueue 64 := (init.createChannel none).1

/-- What is pushed to the default channel is popped through the empty name. -/
theorem not_separate_empty_name :
    (channelKey 64 none ∈ defaulted.msgQueue ∧ channelKey 64 emptyName ∈ defaulted.msgQueue) ∧
      defaulted.returned emptyName [.push ⟨1, [5]⟩ none, .pop emptyName] = [some ⟨1, [5]⟩] ∧
      defaulted.returned emptyName [.pop emptyName] = [some NULL_MSG] := by
  decide

/-- Two names of letters that have the same key. -/
example : lwHashCode 64 ⟨[0x6e, 0x63, 0x67], by simp⟩ =
    lwHashCode 64 ⟨[0x74, 0x74, 0x71], by simp⟩ := by decide

end SimpleMessageQueue

end NanomsgDemo.Net

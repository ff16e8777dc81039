import NanomsgDemo.Lib.Fifo
import Mathlib.Data.List.DropRight
import NanomsgDemo.Net.CacheQueue

/-!
# The byte queue as a FIFO

`CacheQueue` under any sequence of calls. What it holds is told by its history
(`Fifo`): the bytes of the pushes since the last `clear`, less those popped. A copy
and a pop of one size agree on when they act, although `front_copyto` compares
`size` only as a `size_t` and `pop` looks at its sign first.
-/

namespace NanomsgDemo.Net

open Fifos

/-- A call of one of the methods of `CacheQueue`. -/
inductive QueueCall where
  | push (buf : Option (List Byte)) (size : Int32)
  | pop (size : Int32)
  | frontCopyto (buffer : Buffer) (size : Int32)
  | clear

namespace QueueCall

/-- The bytes a call puts in: a null buffer and a size that is not positive are refused. -/
def accepted : QueueCall → List Byte
  | .push (some p) size => if 0 < size then p.take size.toInt.toNat else []
  | _ => []

def isClear : QueueCall → Bool
  | .clear => true
  | _ => false

/-- The calls after the last `clear`. -/
def sinceClear (calls : List QueueCall) : List QueueCall :=
  calls.rtakeWhile fun c => !c.isClear

end QueueCall

/-- The queue after a call. -/
def CacheQueue.step (q : CacheQueue) : QueueCall → CacheQueue
  | .push buf size => (q.push buf size).1
  | .pop size => q.pop size
  | .frontCopyto _ _ => q
  | .clear => q.clear

/-- What a call is to do to the history. -/
def record (s : Fifo Byte) : QueueCall → Fifo Byte
  | .push buf size => s.put (QueueCall.push buf size).accepted
  | .pop size => if 0 < size then s.take size.toInt.toNat else s
  | .frontCopyto _ _ => s
  | .clear => .empty

/-- A size the queue can serve. -/
def CacheQueue.Serves (q : CacheQueue) (n : Int32) : Prop :=
  0 < n.toInt ∧ n.toInt ≤ q.cq.length

/-- The first `n` bytes of the queue, and there are some. -/
def CacheQueue.FirstBytes (q : CacheQueue) (n : Int32) (bytes : List Byte) : Prop :=
  bytes ≠ [] ∧ (bytes.length : Int) = n.toInt ∧ bytes <+: q.cq

variable {q : CacheQueue} {n : Int32} {bytes : List Byte}

/-! ## One call -/

theorem push_eq (q : CacheQueue) (buf : Option (List Byte)) (size : Int32) :
    (q.push buf size).1 = ⟨q.cq ++ (QueueCall.push buf size).accepted⟩ := by
  cases buf with
  | none => simp [CacheQueue.push, QueueCall.accepted]
  | some p =>
      by_cases h : 0 < size
      · have hpos : 0 < size.toInt := int32_lt_iff.mp h
        rw [push_of_pos q p hpos, QueueCall.accepted, if_pos h]
      · have hle : size ≤ 0 := Int32.not_lt.mp h
        simp [CacheQueue.push, QueueCall.accepted, h, hle]

/-- Nothing but a positive size from a buffer that is there makes `push` change the queue. -/
theorem of_push_ne {buf : Option (List Byte)} {size : Int32} (h : (q.push buf size).1 ≠ q) :
    buf ≠ none ∧ 0 < size := by
  constructor
  · intro hbuf
    subst hbuf
    exact h rfl
  · by_contra hsize
    refine h ?_
    rw [push_eq]
    cases buf with
    | none => simp [QueueCall.accepted]
    | some p => simp [QueueCall.accepted, hsize]

theorem copy_of_serves (h : q.Serves n) (buffer : Buffer) :
    q.frontCopyto buffer n = buffer.write (q.cq.take n.toInt.toNat) := by
  have hpos := h.1
  have hle := h.2
  unfold CacheQueue.frontCopyto
  rw [if_neg (by rw [sizeT_of_nonneg (by omega)]; omega)]

/-- A negative size passes the guard of the copy at most where it copies nothing. -/
theorem copy_of_not_serves (h : ¬ q.Serves n) (buffer : Buffer) :
    q.frontCopyto buffer n = buffer := by
  unfold CacheQueue.Serves at h
  unfold CacheQueue.frontCopyto
  split
  · rfl
  · rename_i hguard
    have hnone : n.toInt.toNat = 0 := by
      by_contra hne
      have hpos : 0 < n.toInt := by omega
      rw [sizeT_of_nonneg (by omega)] at hguard
      exact h ⟨hpos, by omega⟩
    rw [hnone]
    rfl

theorem pop_of_serves (h : q.Serves n) : (q.pop n).cq = q.cq.drop n.toInt.toNat := by
  have hpos := h.1
  exact pop_of_le (by omega) h.2

theorem pop_of_not_serves (h : ¬ q.Serves n) : q.pop n = q := by
  unfold CacheQueue.Serves at h
  unfold CacheQueue.pop
  by_cases hn : n ≤ 0
  · exact if_pos hn
  · have hpos : 0 < n.toInt := by
      have hle : ¬ n.toInt ≤ 0 := fun h => hn (int32_le_iff.mpr h)
      omega
    have hguard : q.cq.length < sizeT n := by
      rw [sizeT_of_nonneg (by omega)]
      omega
    rw [if_neg hn, if_pos hguard, ite_self]

theorem firstBytes_take (h : q.Serves n) : q.FirstBytes n (q.cq.take n.toInt.toNat) := by
  have hpos := h.1
  have hle := h.2
  have hlen : (q.cq.take n.toInt.toNat).length = n.toInt.toNat := by
    rw [List.length_take]
    omega
  refine ⟨List.ne_nil_of_length_pos (by omega), by omega, List.take_prefix ..⟩

theorem serves_of_firstBytes (h : q.FirstBytes n bytes) : q.Serves n := by
  obtain ⟨hne, hlen, hpre⟩ := h
  have hpos := List.length_pos_iff.mpr hne
  have hle := hpre.length_le
  constructor <;> omega

/-! ## Any sequence of calls -/

theorem step_record {s : Fifo Byte} (hs : q.cq = s.content) (c : QueueCall) :
    (q.step c).cq = (record s c).content := by
  cases c with
  | push buf size =>
      show (q.push buf size).1.cq = _
      rw [push_eq, record, Fifo.content_put, ← hs]
  | pop size =>
      show (q.pop size).cq = _
      rw [record]
      by_cases hserves : q.Serves size
      · have hle : size.toInt.toNat ≤ s.content.length := by
          have := hserves.2
          rw [← hs]
          omega
        have hpos : 0 < size := int32_lt_iff.mpr hserves.1
        rw [pop_of_serves hserves, if_pos hpos, Fifo.content_take hle, hs]
      · rw [pop_of_not_serves hserves]
        split
        · rename_i hpos
          -- the size is positive, so there are too few bytes
          have hpos : 0 < size.toInt := int32_lt_iff.mp hpos
          have hlt : s.content.length < size.toInt.toNat := by
            rw [← hs]
            by_contra hge
            exact hserves ⟨hpos, by omega⟩
          rw [Fifo.take_of_lt hlt, hs]
        · exact hs
  | frontCopyto buffer size => exact hs
  | clear => exact Fifo.content_empty.symm

theorem run_record {s : Fifo Byte} (hs : q.cq = s.content) (calls : List QueueCall) :
    (calls.foldl CacheQueue.step q).cq = (calls.foldl record s).content := by
  induction calls generalizing q s with
  | nil => exact hs
  | cons c calls ih => exact ih (step_record hs c)

theorem written_record (s : Fifo Byte) (c : QueueCall) :
    (record s c).written = if c.isClear then [] else s.written ++ c.accepted := by
  cases c with
  | push buf size => exact Fifo.written_put s _
  | pop size =>
      show (if 0 < size then s.take size.toInt.toNat else s).written = s.written ++ []
      rw [List.append_nil]
      split
      · exact Fifo.written_take s size.toInt.toNat
      · rfl
  | frontCopyto buffer size => exact (List.append_nil s.written).symm
  | clear => rfl

/-- What went in since the last `clear` is what the calls since then had accepted. -/
theorem written_run (calls : List QueueCall) :
    (calls.foldl record .empty).written =
      (QueueCall.sinceClear calls).flatMap QueueCall.accepted := by
  induction calls using List.reverseRecOn with
  | nil => rfl
  | append_singleton calls c ih =>
      unfold QueueCall.sinceClear at ih ⊢
      rw [List.foldl_append, List.foldl_cons, List.foldl_nil, written_record,
        List.rtakeWhile_concat, ih]
      cases c.isClear with
      | true => rfl
      | false => simp [List.flatMap_append]

/--
**`CacheQueue` is a byte FIFO.**

After any calls the queue holds what was accepted since the last `clear` less what
was popped; only a positive size from a buffer that is there is accepted. A copy
delivers the first `n` bytes exactly when `0 < n ≤ size`, which is when a pop of the
same `n` removes them; otherwise neither touches anything.
-/
theorem cacheQueue_fifo (calls : List QueueCall) (n : Int32) :
    let q := calls.foldl CacheQueue.step .empty
    let s := calls.foldl record .empty
    (s.written = (QueueCall.sinceClear calls).flatMap QueueCall.accepted ∧
      q.cq = s.written.drop s.taken) ∧
    (∀ buf size, (q.push buf size).1 ≠ q → buf ≠ none ∧ 0 < size) ∧
    ((∃ bytes, q.FirstBytes n bytes ∧ ∀ buffer, q.frontCopyto buffer n = buffer.write bytes) ↔
      q.Serves n) ∧
    ((∃ bytes, q.FirstBytes n bytes ∧ q.cq = bytes ++ (q.pop n).cq) ↔ q.Serves n) ∧
    (¬ q.Serves n → (∀ buffer, q.frontCopyto buffer n = buffer) ∧ q.pop n = q) := by
  intro q s
  refine ⟨⟨written_run calls, ?_⟩, fun _ _ h => of_push_ne h, ?_, ?_, ?_⟩
  · exact run_record (q := .empty) (s := .empty) rfl calls
  · constructor
    · intro h
      obtain ⟨bytes, hbytes, -⟩ := h
      exact serves_of_firstBytes hbytes
    · intro h
      exact ⟨_, firstBytes_take h, copy_of_serves h⟩
  · constructor
    · intro h
      obtain ⟨bytes, hbytes, -⟩ := h
      exact serves_of_firstBytes hbytes
    · intro h
      refine ⟨_, firstBytes_take h, ?_⟩
      rw [pop_of_serves h, List.take_append_drop]
  · intro h
    exact ⟨copy_of_not_serves h, pop_of_not_serves h⟩

end NanomsgDemo.Net

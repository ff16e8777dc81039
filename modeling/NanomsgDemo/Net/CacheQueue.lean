import Mathlib.Algebra.Group.Int.Defs
import Mathlib.Algebra.GroupWithZero.Nat
import Mathlib.Data.List.Basic

/-!
# The byte queue under the framing layer

`libnet/cache_queue.cpp`: a `std::vector<lw_char8>` used as a FIFO. Sizes come in
as `int` and are compared with the vector's `size_t`, so each comparison goes
through the usual arithmetic conversion, `sizeT`.

A buffer that `new lw_char8[n]` returned is a list of cells, `none` where nothing
has been written yet.
-/

namespace NanomsgDemo.Net

/-- One byte, `lw_char8`. -/
abbrev Byte := UInt8

/-- The conversion of an `int` operand to the 64-bit `size_t` it is compared with. -/
def sizeT (n : Int32) : Nat := (n.toInt % 2 ^ 64).toNat

/-- A heap buffer: `none` is a cell nothing has been written to. -/
abbrev Buffer := List (Option Byte)

/-- `new lw_char8[n]`: `n` cells with indeterminate contents. -/
def newBuffer (n : Nat) : Buffer := List.replicate n none

/-- Write `bytes` at the front of a buffer. -/
def Buffer.write (buf : Buffer) (bytes : List Byte) : Buffer :=
  bytes.map some ++ buf.drop bytes.length

/-- Read `n` cells from `offset` on: `none` when one of them is outside or was never written. -/
def Buffer.read (buf : Buffer) (offset n : Nat) : Option (List Byte) :=
  if offset + n ≤ buf.length then ((buf.drop offset).take n).mapM id else none

/-- `CacheQueue`, with its vector. -/
structure CacheQueue where
  cq : List Byte
  deriving DecidableEq, Repr

namespace CacheQueue

/-- A queue as its constructor leaves it. -/
def empty : CacheQueue := ⟨[]⟩

/-- `CacheQueue::push`: `buf` is `none` for a null pointer, else the bytes that are there. -/
def push (q : CacheQueue) (buf : Option (List Byte)) (size : Int32) : CacheQueue × Int32 :=
  match buf with
  | none => (q, -1)
  | some p =>
      if size ≤ 0 then (q, -2)
      else (⟨q.cq ++ p.take size.toInt.toNat⟩, size)

/-- `CacheQueue::pop`. -/
def pop (q : CacheQueue) (size : Int32) : CacheQueue :=
  if size ≤ 0 then q
  else if q.cq = [] then q
  else if sizeT size > q.cq.length then q
  else ⟨q.cq.drop size.toInt.toNat⟩

/-- `CacheQueue::front_copyto(char*, int)`: the buffer after the copy. -/
def frontCopyto (q : CacheQueue) (buffer : Buffer) (size : Int32) : Buffer :=
  if q.cq.length < sizeT size then buffer
  else buffer.write (q.cq.take size.toInt.toNat)

/-- `CacheQueue::size`: the vector's size on its way through an `int` into a `size_t`. -/
def size (q : CacheQueue) : Nat := sizeT (Int32.ofNat q.cq.length)

/-- `CacheQueue::front`: the bytes that can be read through `data()`. -/
def front (q : CacheQueue) : List Byte := q.cq

/-- `CacheQueue::clear`. -/
def clear (_ : CacheQueue) : CacheQueue := ⟨[]⟩

end CacheQueue

/-! ## Conversions between `int` and `size_t` -/

/-- A length read into an `lw_int32`. -/
def int32 (n : Nat) : Int32 := Int32.ofNat n

theorem int32_toInt_of_lt {n : Nat} (h : n < 2 ^ 31) : (int32 n).toInt = n :=
  Int32.toInt_ofNat_of_lt h

theorem int32_toInt (n : Nat) : (int32 n).toInt = (n + 2 ^ 31) % 2 ^ 32 - 2 ^ 31 := by
  unfold int32
  rw [Int32.toInt_ofNat', Int.bmod_def]
  simp only [Int32.size]
  split <;> omega

theorem int32_toInt_le (n : Nat) : (int32 n).toInt ≤ n := by
  rw [int32_toInt]; omega

theorem sizeT_of_nonneg {n : Int32} (h : 0 ≤ n.toInt) : sizeT n = n.toInt.toNat := by
  have := n.toInt_lt
  unfold sizeT
  rw [Int.emod_eq_of_lt h (by omega)]

/-- The length a queue reports, back in an `lw_int32`, is the one its vector would report. -/
theorem int32_size (q : CacheQueue) : int32 q.size = int32 q.cq.length := by
  apply Int32.toInt_inj.mp
  have h : (q.size : Int) = (int32 q.cq.length).toInt % 2 ^ 64 := by
    unfold CacheQueue.size sizeT int32; omega
  rw [int32_toInt, h, int32_toInt]
  omega

theorem int32_le_iff {m n : Int32} : m ≤ n ↔ m.toInt ≤ n.toInt := Int32.le_iff_toInt_le

theorem int32_lt_iff {m n : Int32} : m < n ↔ m.toInt < n.toInt := Int32.lt_iff_toInt_lt

/-! ## Buffers -/

@[simp] theorem newBuffer_length (n : Nat) : (newBuffer n).length = n := List.length_replicate ..

/-- A write that fills the buffer leaves nothing unwritten. -/
theorem Buffer.write_newBuffer (bytes : List Byte) :
    (newBuffer bytes.length).write bytes = bytes.map some := by
  unfold Buffer.write
  rw [List.drop_of_length_le (by simp), List.append_nil]

theorem mapM_id_map_some (l : List Byte) : (l.map some).mapM id = some l := by
  induction l with
  | nil => rfl
  | cons b l ih => simp [List.mapM_cons, ih]

theorem Buffer.read_map_some {l : List Byte} {offset n : Nat} (h : offset + n ≤ l.length) :
    Buffer.read (l.map some) offset n = some ((l.drop offset).take n) := by
  unfold Buffer.read
  rw [if_pos (by simpa using h), ← List.map_drop, ← List.map_take, mapM_id_map_some]

theorem Buffer.read_of_short {buf : Buffer} {offset n : Nat} (h : buf.length < offset + n) :
    buf.read offset n = none := by
  unfold Buffer.read
  rw [if_neg (by omega)]

/-! ## What a push, and a copy and a pop of the same size do -/

/-- A push with a positive count appends the bytes it counts. -/
theorem push_of_pos (q : CacheQueue) (p : List Byte) {size : Int32} (h : 0 < size.toInt) :
    (q.push (some p) size).1 = ⟨q.cq ++ p.take size.toInt.toNat⟩ := by
  have hpos : ¬ size ≤ 0 := fun hle => by
    have h0 : size.toInt ≤ 0 := int32_le_iff.mp hle
    omega
  simp [CacheQueue.push, hpos]

/-- A count that fits an `lw_int32` counts all of the bytes. -/
theorem take_int32_length {p : List Byte} (h : p.length < 2 ^ 31) :
    p.take (int32 p.length).toInt.toNat = p := by
  rw [int32_toInt_of_lt h, Int.toNat_natCast, List.take_length]

/-- A copy of a size the queue can serve fills the buffer with the queue's first bytes. -/
theorem frontCopyto_of_le {q : CacheQueue} {size : Int32} (h0 : 0 ≤ size.toInt)
    (hle : size.toInt ≤ q.cq.length) :
    q.frontCopyto (newBuffer size.toInt.toNat) size = (q.cq.take size.toInt.toNat).map some := by
  have hlen : (q.cq.take size.toInt.toNat).length = size.toInt.toNat := by
    rw [List.length_take]; omega
  unfold CacheQueue.frontCopyto
  rw [if_neg (by rw [sizeT_of_nonneg h0]; omega)]
  have hw := Buffer.write_newBuffer (q.cq.take size.toInt.toNat)
  rwa [hlen] at hw

/-- A pop of a size the queue can serve removes exactly these bytes. -/
theorem pop_of_le {q : CacheQueue} {size : Int32} (h0 : 0 ≤ size.toInt)
    (hle : size.toInt ≤ q.cq.length) : (q.pop size).cq = q.cq.drop size.toInt.toNat := by
  unfold CacheQueue.pop
  by_cases hz : size ≤ 0
  · -- a size of zero: `pop` returns at once, and there is nothing to remove
    have hz' : size.toInt ≤ 0 := int32_le_iff.mp hz
    rw [if_pos hz, show size.toInt.toNat = 0 by omega, List.drop_zero]
  · have hz' : ¬ size.toInt ≤ 0 := fun h => hz (int32_le_iff.mpr h)
    have hne : q.cq ≠ [] := List.length_pos_iff.mp (by omega)
    rw [if_neg hz, if_neg hne, if_neg (by rw [sizeT_of_nonneg h0]; omega)]

end NanomsgDemo.Net

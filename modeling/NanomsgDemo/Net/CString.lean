import Mathlib.Data.List.TakeDrop
import Mathlib.Data.List.TakeWhile
import NanomsgDemo.Net.CacheQueue

/-!
# C strings

A `const char*` that is not null stands for the bytes before the first NUL. The
source takes its strings from buffers that hold more than the string, so the way
from a buffer to the string in it is here as well.
-/

namespace NanomsgDemo.Net

/-- A character literal. -/
def chr (c : Char) : Byte := UInt8.ofNat c.toNat

/-- The bytes of a string literal. -/
def text (s : String) : List Byte := s.toUTF8.data.toList

/-- A C string: bytes other than NUL. -/
structure CString where
  bytes : List Byte
  nonzero : ∀ b ∈ bytes, b ≠ 0
  deriving DecidableEq

namespace CString

/-- The string at the front of a buffer. -/
def ofBuffer (buf : List Byte) : CString where
  bytes := buf.takeWhile (· ≠ 0)
  nonzero := fun b hb => by simpa using List.mem_takeWhile_imp hb

/-- A string literal. -/
def lit (s : String) : CString := ofBuffer (text s)

theorem ext_bytes {c d : CString} (h : c.bytes = d.bytes) : c = d := by
  cases c
  cases d
  cases h
  rfl

@[simp] theorem ofBuffer_bytes (c : CString) : ofBuffer c.bytes = c := by
  apply ext_bytes
  exact List.takeWhile_eq_self_iff.mpr fun b hb => by simpa using c.nonzero b hb

theorem bytes_ofBuffer {buf : List Byte} (h : ∀ b ∈ buf, b ≠ 0) : (ofBuffer buf).bytes = buf :=
  List.takeWhile_eq_self_iff.mpr fun b hb => decide_eq_true (h b hb)

end CString

end NanomsgDemo.Net

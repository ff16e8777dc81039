import Mathlib.Algebra.GroupWithZero.Nat
import NanomsgDemo.Net.CString
import NanomsgDemo.Utils.Passed

/-!
# Files

`libutils/FileUtils.cpp`, as far as whole files are read and written in binary mode:
`getData` and `writeData`. The disk is given by what can be read and what can be
opened for writing.
-/

namespace NanomsgDemo.Utils

open Net

/-- What can be read, and what can be opened for writing. -/
structure Disk where
  files : CString → Option (List Byte)
  writable : CString → Bool

/--
`FileUtils::getDataFromFile`; `Data::Null` for no file and for an empty one. The size
comes from `ftell`, a `long`: for a file of 2 GiB or more it is `-1`, and the buffer
that is allocated for that size is used unchecked.
-/
def getDataFromFile (disk : Disk) (filename : CString) : Option Bytes :=
  if filename.bytes = [] then some .null
  else
    match disk.files filename with
    | none => some .null
    | some content =>
        if h : content.length < 2 ^ 31 then some ⟨content, Nat.lt_trans h (by decide)⟩ else none

/-- The file is there with this content. -/
def Disk.put (disk : Disk) (filename : CString) (content : List Byte) : Disk :=
  { disk with files := Function.update disk.files filename (some content) }

@[simp] theorem Disk.files_put_self (disk : Disk) (filename : CString) (content : List Byte) :
    (disk.put filename content).files filename = some content := Function.update_self ..

/--
`FileUtils::setDataToFile`. Mode `wb+` empties a file as it is opened; nothing is read
from `data` for a length of zero. `unwritten` is what the cells of `data` hold that
nobody has written.
-/
def setDataToFile (unwritten : Nat → Byte) (disk : Disk) (filename : CString)
    (data : Option Buffer) (len : Nat) : Option Disk :=
  if filename.bytes = [] then some disk
  else if disk.writable filename then
    match data with
    | none => if len = 0 then some (disk.put filename []) else none
    | some buffer =>
        if len ≤ buffer.length then
          some (disk.put filename (contents unwritten (buffer.take len)))
        else none
  else some disk

theorem setDataToFile_of_le (unwritten : Nat → Byte) {disk : Disk} {name : CString}
    {buffer : Buffer} {len : Nat} (hname : name.bytes ≠ []) (hwritable : disk.writable name = true)
    (h : len ≤ buffer.length) :
    setDataToFile unwritten disk name (some buffer) len =
      some (disk.put name (contents unwritten (buffer.take len))) := by
  unfold setDataToFile
  rw [if_neg hname, if_pos hwritable]
  exact if_pos h

theorem setDataToFile_holds {unwritten : Nat → Byte} {p : Passed} {content : List Byte}
    {disk : Disk} {name : CString} (h : p.Holds content) (hname : name.bytes ≠ [])
    (hwritable : disk.writable name = true) :
    setDataToFile unwritten disk name p.out p.len = some (disk.put name content) := by
  obtain ⟨-, out, hout, hread⟩ := h
  obtain ⟨hle, hcells⟩ := read_eq_some_iff.mp hread
  rw [hout, setDataToFile_of_le unwritten hname hwritable hle, hcells, contents_map_some]

/-- A file of less than 2 GiB is read whole. -/
theorem getDataFromFile_of_lt {disk : Disk} {name : CString} {content : List Byte}
    (hname : name.bytes ≠ []) (hfile : disk.files name = some content)
    (h : content.length < 2 ^ 31) :
    getDataFromFile disk name = some ⟨content, Nat.lt_trans h (by decide)⟩ := by
  unfold getDataFromFile
  rw [if_neg hname, hfile]
  exact dif_pos h

theorem getDataFromFile_of_le {disk : Disk} {name : CString} {content : List Byte}
    (hname : name.bytes ≠ []) (hfile : disk.files name = some content)
    (h : 2 ^ 31 ≤ content.length) : getDataFromFile disk name = none := by
  unfold getDataFromFile
  rw [if_neg hname, hfile]
  exact dif_neg (Nat.not_lt.mpr h)

end NanomsgDemo.Utils

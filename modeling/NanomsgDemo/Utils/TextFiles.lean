import NanomsgDemo.Lib.TextStreams
import NanomsgDemo.Utils.FileUtils

/-!
# Texts in files

`FileUtils::setStringToFile` and `getStringFromFile`, which open files as text.
A text that is read ends at its first NUL, and where lines end in `"\r\n"`, at a control-Z.
-/

namespace NanomsgDemo.Utils

open Net

/-- `setStringToFile`, with the length as an `unsigned int`. -/
def setStringToFile (crlf : Bool) (disk : Disk) (filename : CString) (data : List Byte) : Disk :=
  if filename.bytes = [] then disk
  else if disk.writable filename then
    disk.put filename (TextStreams.write crlf (data.take (data.length % 2 ^ 32)))
  else disk

/--
`getStringFromFile`. The size of the buffer is that of the file, which is not that of
the text; the NUL comes after the text. For a file of 2 GiB or more the size is `-1`, and
the buffer is written to before its beginning.
-/
def getStringFromFile (crlf : Bool) (disk : Disk) (filename : CString) : Option (List Byte) :=
  if filename.bytes = [] then some []
  else
    match disk.files filename with
    | none => some []
    | some content =>
        if content.length < 2 ^ 31 then
          some ((TextStreams.read crlf content).takeWhile (· ≠ 0))
        else none

theorem takeWhile_ne_eq_self_iff (b : Byte) (l : List Byte) :
    l.takeWhile (· ≠ b) = l ↔ b ∉ l := by
  rw [List.takeWhile_eq_self_iff]
  refine ⟨fun h hin => of_decide_eq_true (h b hin) rfl, fun h c hc => decide_eq_true ?_⟩
  rintro rfl
  exact h hc

/--
A text comes back from its file exactly when it has neither a NUL nor, where these end a
text, a control-Z, and its file is of less than 2 GiB.
-/
theorem stringFile_roundTrip_iff (crlf : Bool) {disk : Disk} {filename : CString}
    (hname : filename.bytes ≠ []) (hwritable : disk.writable filename = true)
    (data : List Byte) :
    getStringFromFile crlf (setStringToFile crlf disk filename data) filename = some data ↔
      0 ∉ data ∧ (crlf = true → 0x1A ∉ data) ∧
        (TextStreams.write crlf data).length < 2 ^ 31 := by
  have hget : ∀ content, getStringFromFile crlf (disk.put filename content) filename =
      if content.length < 2 ^ 31 then
        some ((TextStreams.read crlf content).takeWhile (· ≠ 0)) else none := by
    intro content
    unfold getStringFromFile
    rw [if_neg hname, Disk.files_put_self]
  have hlen := TextStreams.length_le_write crlf data
  unfold setStringToFile
  rw [if_neg hname, if_pos hwritable, hget, TextStreams.read_write]
  by_cases hlong : data.length < 2 ^ 32
  · rw [Nat.mod_eq_of_lt hlong, List.take_length]
    by_cases hfits : (TextStreams.write crlf data).length < 2 ^ 31
    · rw [if_pos hfits, Option.some_inj]
      cases crlf with
      | false =>
          rw [if_neg Bool.false_ne_true, takeWhile_ne_eq_self_iff]
          exact (and_iff_left ⟨fun h => absurd h Bool.false_ne_true, hfits⟩).symm
      | true =>
          rw [if_pos rfl]
          constructor
          · intro h
            -- neither of the two may have cut anything off
            have hsub := List.takeWhile_sublist (· ≠ (0 : Byte)) (l := data.takeWhile (· ≠ 0x1A))
            rw [h] at hsub
            have hwhole := (List.takeWhile_sublist _).antisymm hsub
            rw [hwhole] at h
            exact ⟨(takeWhile_ne_eq_self_iff 0 data).mp h,
              fun _ => (takeWhile_ne_eq_self_iff 0x1A data).mp hwhole, hfits⟩
          · rintro ⟨hnul, hend, -⟩
            rw [(takeWhile_ne_eq_self_iff 0x1A data).mpr (hend rfl)]
            exact (takeWhile_ne_eq_self_iff 0 data).mpr hnul
    · rw [if_neg hfits]
      exact iff_of_false (by simp) fun h => hfits h.2.2
  · -- what is written is too short
    refine iff_of_false (fun h => ?_) fun h => hlong (by omega)
    have hread : ((if crlf then (data.take (data.length % 2 ^ 32)).takeWhile (· ≠ 0x1A) else
        data.take (data.length % 2 ^ 32)).takeWhile (· ≠ 0)).length < 2 ^ 32 := by
      refine Nat.lt_of_le_of_lt (List.takeWhile_sublist _).length_le ?_
      refine Nat.lt_of_le_of_lt ?_ (Nat.mod_lt data.length (Nat.two_pow_pos 32))
      split
      · exact (List.takeWhile_sublist _).length_le.trans (List.length_take_le _ _)
      · exact List.length_take_le _ _
    split at h
    · rw [Option.some.inj h] at hread
      exact hlong hread
    · exact absurd h (by simp)

theorem stringFile_roundTrip_plain :
    getStringFromFile true (setStringToFile true ⟨fun _ => none, fun _ => true⟩ (.lit "a") [10])
        (.lit "a") = some [10] ↔
      0 ∉ ([10] : List Byte) ∧ (true = true → 0x1A ∉ ([10] : List Byte)) ∧
        (TextStreams.write true [10]).length < 2 ^ 31 :=
  stringFile_roundTrip_iff true (by decide) rfl [10]

end NanomsgDemo.Utils

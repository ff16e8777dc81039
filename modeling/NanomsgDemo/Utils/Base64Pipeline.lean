import Mathlib.Algebra.GroupWithZero.Nat
import NanomsgDemo.Utils.Base64

/-!
# Base 64, one callback in the other

How `base64_test` of `CenterServer/main.cpp` uses the class: what `encrypt` calls its
callback with is passed to `decrypt` as it is, from memory and by way of a file. The
length is too large unless it is a multiple of three that was encoded, so behind the
encoding come its NUL and, for two bytes over, one byte that nobody has written.

The decoder never gets to them. Where there are such bytes the encoding ends with a `=`,
and it stops there, in memory and in a file.
-/

namespace NanomsgDemo.Utils

open Net Buffers Radix64

/-! ## What comes after the padding -/

theorem decodeLoop_append (bits charCount : Nat) (output : List Byte) {input : List Byte}
    (h : chr '=' ∈ input) (rest : List Byte) :
    decodeLoop bits charCount output (input ++ rest) =
      { decodeLoop bits charCount output input with
        unread := (decodeLoop bits charCount output input).unread ++ rest } := by
  induction input generalizing bits charCount output with
  | nil => cases h
  | cons c input ih =>
      by_cases hpad : c = chr '='
      · subst hpad
        rw [List.cons_append, decodeLoop_pad, decodeLoop_pad]
        rfl
      · have hmem : chr '=' ∈ input := (List.mem_cons.mp h).resolve_left fun heq => hpad heq.symm
        rw [List.cons_append]
        unfold decodeLoop
        rw [if_neg hpad, if_neg hpad]
        cases decoder c with
        | none => exact ih bits charCount output hmem
        | some v =>
            dsimp only
            split
            · exact ih _ _ _ hmem
            · exact ih _ _ _ hmem

/-- Nothing after the first `=` is read. -/
theorem decodeChars_append {input : List Byte} (h : chr '=' ∈ input) (rest : List Byte) :
    decodeChars (input ++ rest) = decodeChars input := by
  have hpad := (decodeLoop_padded 0 0 [] input).1.mpr h
  unfold decodeChars
  rw [decodeLoop_append 0 0 [] h]
  unfold decodeEnd
  dsimp only
  rw [if_pos hpad, if_pos hpad]

theorem pad_mem_encode {d : List Byte} (h : ¬ 3 ∣ d.length) :
    chr '=' ∈ encode digit (chr '=') d := by
  induction d using encode.induct with
  | case1 => exact absurd (Nat.dvd_zero 3) h
  | case2 a => simp [encode]
  | case3 a b => simp [encode]
  | case4 a b c rest ih =>
      have hrest : ¬ 3 ∣ rest.length := by
        simp only [List.length_cons] at h
        omega
      simp only [encode, List.mem_cons]
      exact Or.inr (Or.inr (Or.inr (Or.inr (ih hrest))))

/-- Bytes after an encoding change nothing if they come after its padding. -/
theorem decodeChars_encode_append {d rest : List Byte} (h : 3 ∣ d.length → rest = []) :
    decodeChars (encode digit (chr '=') d ++ rest) = (d, 0) := by
  by_cases hthree : 3 ∣ d.length
  · rw [h hthree, List.append_nil, decodeChars_encode]
  · rw [decodeChars_append (pad_mem_encode hthree), decodeChars_encode]

/-! ## What `encrypt` passes on -/

/-- `outLength` of `base64Encode`. -/
def outLength (n : Nat) : Nat := n * 4 % 2 ^ 32 / 3 + (if 0 < n % 3 then 4 else 0)

theorem fill_of_lt {size : Nat} {bytes : List Byte} (h : size < bytes.length) :
    fill size bytes = none := by
  unfold fill
  refine storeAll_eq_none (p := 0) ?_ (Nat.zero_le _)
  rw [newBuffer_length, List.length_map]
  omega

/-- What it is too large by. -/
theorem outLength_eq {n : Nat} (h : n < 2 ^ 30) : outLength n = 4 * ((n + 2) / 3) + n % 3 := by
  have hmod : n * 4 % 2 ^ 32 = n * 4 := Nat.mod_eq_of_lt (by omega)
  have hcases : n % 3 = 0 ∨ n % 3 = 1 ∨ n % 3 = 2 := by omega
  unfold outLength
  rw [hmod]
  rcases hcases with h3 | h3 | h3
  · rw [if_neg (by omega)]
    omega
  · rw [if_pos (by omega)]
    omega
  · rw [if_pos (by omega)]
    omega

namespace Base64

theorem encrypt_true (d : Bytes) :
    encrypt true d = (fill (outLength d.bytes.length + 1) (encodeChars d.bytes)).map fun out =>
      ⟨some out, outLength d.bytes.length⟩ := rfl

theorem length_encodeChars (d : List Byte) :
    (encodeChars d).length = 4 * ((d.length + 2) / 3) + 1 := by
  rw [encodeChars_eq, List.length_append, length_encode, List.length_singleton]

/-- From 1 GiB on what is allocated is too small. -/
theorem encrypt_of_le {d : Bytes} (h : 2 ^ 30 ≤ d.bytes.length) : encrypt true d = none := by
  have hlt := d.length_lt
  have hshort : outLength d.bytes.length + 1 < (encodeChars d.bytes).length := by
    rw [length_encodeChars]
    unfold outLength
    split <;> omega
  rw [encrypt_true, fill_of_lt hshort]
  rfl

/-- The cells behind the encoding that count as part of it. -/
def behind (n : Nat) : Buffer := (some 0 :: newBuffer (n % 3)).take (n % 3)

theorem length_behind (n : Nat) : (behind n).length = n % 3 := by
  unfold behind
  rw [List.length_take, List.length_cons, newBuffer_length]
  omega

theorem encrypt_of_lt {d : Bytes} (h : d.bytes.length < 2 ^ 30) :
    ∃ out, encrypt true d = some ⟨some out, outLength d.bytes.length⟩ ∧
      out.length = outLength d.bytes.length + 1 ∧
      out.take (outLength d.bytes.length) =
        (encode digit (chr '=') d.bytes).map some ++ behind d.bytes.length := by
  have hlen := length_encode digit (chr '=') d.bytes
  have hchars := length_encodeChars d.bytes
  have hout := outLength_eq h
  have hfill := fill_of_le (by omega : (encodeChars d.bytes).length ≤ outLength d.bytes.length + 1)
  have hrest : outLength d.bytes.length + 1 - (encodeChars d.bytes).length =
      d.bytes.length % 3 := by omega
  rw [hrest, encodeChars_eq, List.map_append, List.append_assoc] at hfill
  refine ⟨_, by rw [encrypt_true, encodeChars_eq, hfill]; rfl, ?_, ?_⟩
  · simp only [List.length_append, List.length_map, newBuffer_length, List.length_singleton]
    omega
  · have hfront : ((encode digit (chr '=') d.bytes).map some).length =
        4 * ((d.bytes.length + 2) / 3) := by rw [List.length_map, hlen]
    rw [hout, ← hfront, List.take_length_add_append]
    rfl

/-! ## One callback in the other -/

section Pipeline

variable {mem : Bool} {d e : Bytes}

/-- If the decoder makes these bytes of it, only the allocation is left to go wrong. -/
theorem decodable_iff_of_chars (h : decodeChars e.bytes = (d.bytes, 0)) :
    Decodable e.bytes ↔ d.bytes.length < mallocSize e.bytes.length := by
  obtain ⟨hlen, herr⟩ := decodeChars_spec e.bytes
  rw [h] at hlen herr
  have hcomplete : ¬ Incomplete e.bytes := fun hinc => Nat.lt_irrefl 0 (herr.mpr hinc)
  unfold Decodable
  rw [and_iff_right hcomplete, ← hlen]

theorem decrypts_of_chars (h : decodeChars e.bytes = (d.bytes, 0)) :
    Decrypts mem e d ↔ mem = true ∧ d.bytes.length < mallocSize e.bytes.length := by
  rw [← decodable_iff_of_chars h]
  constructor
  · intro hres
    obtain ⟨out, hres, -⟩ := hres
    exact decodable_of_decrypt hres
  · intro hcond
    obtain ⟨rfl, hcond⟩ := hcond
    obtain ⟨rest, hres⟩ := decrypt_of_decodable hcond
    rw [h] at hres
    exact ⟨_, hres, List.take_left' (List.length_map some)⟩

/-- What `decrypt` takes the cells it is passed for. -/
theorem decodeChars_of_seen {bytes : List Byte} (h : d.bytes.length < 2 ^ 30)
    (hseen : Seen ((encode digit (chr '=') d.bytes).map some ++ behind d.bytes.length) bytes) :
    bytes.length = outLength d.bytes.length ∧ decodeChars bytes = (d.bytes, 0) := by
  constructor
  · rw [← List.Forall₂.length_eq hseen, List.length_append, List.length_map, length_encode,
      length_behind, outLength_eq h]
  · obtain ⟨rest, hrest, htail⟩ := seen_append.mp hseen
    rw [hrest]
    refine decodeChars_encode_append ?_
    intro hthree
    have hlen := List.Forall₂.length_eq htail
    rw [length_behind] at hlen
    exact List.length_eq_zero_iff.mp (by omega)

theorem decrypts_of_seen (h : d.bytes.length < 2 ^ 30)
    (hseen : Seen ((encode digit (chr '=') d.bytes).map some ++ behind d.bytes.length) e.bytes) :
    Decrypts mem e d ↔
      mem = true ∧ d.bytes.length < mallocSize (outLength d.bytes.length) := by
  obtain ⟨hsize, hchars⟩ := decodeChars_of_seen h hseen
  rw [decrypts_of_chars hchars, hsize]

/--
`encrypt` is passed on to `decrypt`, whose callback gets the data, whatever stands in the
cells that nobody has written.
-/
def Pipeline (mem mem' : Bool) (d : Bytes) : Prop :=
  ∃ out len, encrypt mem d = some ⟨some out, len⟩ ∧ len ≤ out.length ∧
    ∀ e : Bytes, Seen (out.take len) e.bytes → Decrypts mem' e d

/--
**The two callbacks fit each other though the length between them is wrong.**

All data below 1 GiB comes back, as long as the size that is allocated for it is not
rounded to one too small. From there on encryption itself overruns its buffer.
-/
theorem base64_pipeline_iff (mem mem' : Bool) (d : Bytes) :
    Pipeline mem mem' d ↔
      mem = true ∧ mem' = true ∧ d.bytes.length < 2 ^ 30 ∧
        d.bytes.length < mallocSize (outLength d.bytes.length) := by
  cases mem with
  | false =>
      refine iff_of_false ?_ ?_
      · intro h
        obtain ⟨out, len, henc, -⟩ := h
        cases henc
      · intro h
        cases h.1
  | true =>
      rw [and_iff_right rfl]
      by_cases h : d.bytes.length < 2 ^ 30
      · obtain ⟨out, henc, hlen, htake⟩ := encrypt_of_lt h
        rw [and_iff_right h]
        constructor
        · intro hpipe
          obtain ⟨out', len, henc', -, hall⟩ := hpipe
          rw [henc] at henc'
          cases henc'
          rw [htake] at hall
          obtain ⟨bytes, hseen⟩ : ∃ bytes, Seen
              ((encode digit (chr '=') d.bytes).map some ++ behind d.bytes.length) bytes :=
            ⟨_, seen_contents (fun _ => 0) _⟩
          have hsize := (decodeChars_of_seen h hseen).1
          rw [outLength_eq h] at hsize
          exact (decrypts_of_seen h hseen).mp (hall ⟨bytes, by omega⟩ hseen)
        · intro hcond
          refine ⟨out, _, henc, by omega, ?_⟩
          intro e hseen
          rw [htake] at hseen
          exact (decrypts_of_seen h hseen).mpr hcond
      · refine iff_of_false ?_ (fun hcond => h hcond.2.1)
        intro hpipe
        obtain ⟨out, len, henc, -⟩ := hpipe
        rw [encrypt_of_le (Nat.le_of_not_lt h)] at henc
        cases henc

end Pipeline

/-! ## By way of a file -/

/-- `Base64::encrypt` of a file. -/
def encryptFile (mem : Bool) (disk : Disk) (filename : CString) : Option Passed :=
  (getDataFromFile disk filename).bind (encrypt mem)

/--
The files of `base64_test`: each callback puts what it is called with into the next one.
The allocations are taken to succeed. `unwritten` and `unwritten'` is what the two find in
cells that nobody has written.
-/
def testFiles (unwritten unwritten' : Nat → Byte) (disk : Disk) (filename enc dec : CString) :
    Option Disk :=
  (encryptFile true disk filename).bind fun p =>
    (setDataToFile unwritten disk enc p.out p.len).bind fun disk =>
      (decryptFile true disk enc).bind fun q => setDataToFile unwritten' disk dec q.out q.len

/-- The last file is like the first, and the files that are not written are as they were. -/
def FilePipeline (unwritten unwritten' : Nat → Byte) (disk : Disk) (filename enc dec : CString)
    (content : List Byte) : Prop :=
  ∃ disk', testFiles unwritten unwritten' disk filename enc dec = some disk' ∧
    disk'.files dec = some content ∧ ∀ f, f ≠ enc → f ≠ dec → disk'.files f = disk.files f

section Files

variable {unwritten unwritten' : Nat → Byte} {disk : Disk} {filename enc dec : CString}
  {content : List Byte}

/-- From the second file on. -/
theorem decryptFile_bind_eq (unwritten' : Nat → Byte) {d e : Bytes} {disk₁ : Disk}
    (henc : enc.bytes ≠ []) (hdec : dec.bytes ≠ []) (hwritable : disk₁.writable dec = true)
    (hfile : disk₁.files enc = some e.bytes) (hread : e.bytes.length < 2 ^ 31)
    (hchars : decodeChars e.bytes = (d.bytes, 0)) :
    ((decryptFile true disk₁ enc).bind fun q => setDataToFile unwritten' disk₁ dec q.out q.len) =
      if d.bytes.length < mallocSize e.bytes.length then some (disk₁.put dec d.bytes)
      else none := by
  have he : decryptFile true disk₁ enc = decrypt true e := by
    unfold decryptFile
    rw [getDataFromFile_of_lt henc hfile hread]
    rfl
  rw [he]
  split
  · rename_i h
    obtain ⟨out, hout, htake⟩ := (decrypts_of_chars hchars).mpr ⟨rfl, h⟩
    have hsize : d.bytes.length ≤ out.length := by
      have := congrArg List.length htake
      rw [List.length_take, List.length_map] at this
      omega
    have hholds : Passed.Holds ⟨some out, d.bytes.length⟩ d.bytes :=
      ⟨rfl, out, rfl, read_eq_some_iff.mpr ⟨hsize, htake⟩⟩
    rw [hout, Option.bind_some]
    exact setDataToFile_holds hholds hdec hwritable
  · rename_i h
    cases hout : decrypt true e with
    | none => rfl
    | some q => exact absurd ((decodable_iff_of_chars hchars).mp (decodable_of_decrypt hout).2) h

/--
**From file to file as in memory.**

For two bytes over the encoding counts a cell that has never been written, and the first
callback puts what it finds there into the file. It comes behind the padding, and is not
read again.
-/
theorem base64_filePipeline_iff (hfilename : filename.bytes ≠ []) (henc : enc.bytes ≠ [])
    (hdec : dec.bytes ≠ []) (hencw : disk.writable enc = true) (hdecw : disk.writable dec = true)
    (hfile : disk.files filename = some content) :
    FilePipeline unwritten unwritten' disk filename enc dec content ↔
      content.length < 2 ^ 30 ∧ content.length < mallocSize (outLength content.length) := by
  by_cases h : content.length < 2 ^ 30
  · let d : Bytes := ⟨content, Nat.lt_trans h (by decide)⟩
    have hd : d.bytes = content := rfl
    obtain ⟨out, hencrypt, hlen, htake⟩ := encrypt_of_lt (d := d) h
    have hfirst : encryptFile true disk filename = some ⟨some out, outLength content.length⟩ := by
      unfold encryptFile
      rw [getDataFromFile_of_lt hfilename hfile (Nat.lt_trans h (by decide))]
      exact hencrypt
    have hset := setDataToFile_of_le unwritten henc hencw
      (show outLength content.length ≤ out.length by rw [hlen]; exact Nat.le_add_right _ 1)
    have hseen := seen_contents unwritten (out.take (outLength content.length))
    generalize contents unwritten (out.take (outLength content.length)) = bytes at hset hseen
    rw [htake] at hseen
    obtain ⟨hsize, hchars⟩ := decodeChars_of_seen (d := d) h hseen
    have hsmall : bytes.length < 2 ^ 31 := by
      rw [hsize, outLength_eq h]
      omega
    have hputw : (disk.put enc bytes).writable dec = true := hdecw
    have hput : (disk.put enc bytes).files enc = some bytes := Disk.files_put_self ..
    have hrest := decryptFile_bind_eq unwritten' (d := d)
      (e := ⟨bytes, Nat.lt_trans hsmall (by decide)⟩) henc hdec hputw hput hsmall hchars
    dsimp only at hrest
    rw [hsize] at hrest
    unfold FilePipeline testFiles
    rw [hfirst, Option.bind_some, and_iff_right h]
    dsimp only
    rw [hset, Option.bind_some, hrest]
    constructor
    · intro hpipe
      obtain ⟨disk', hdisk, -⟩ := hpipe
      by_contra hshort
      rw [if_neg hshort] at hdisk
      cases hdisk
    · intro hroom
      refine ⟨_, if_pos hroom, Disk.files_put_self .., ?_⟩
      intro f hfenc hfdec
      exact (Function.update_of_ne hfdec ..).trans (Function.update_of_ne hfenc ..)
  · refine iff_of_false ?_ (fun hcond => h hcond.1)
    intro hpipe
    obtain ⟨disk', hdisk, -⟩ := hpipe
    have hfirst : encryptFile true disk filename = none := by
      unfold encryptFile
      by_cases hread : content.length < 2 ^ 31
      · rw [getDataFromFile_of_lt hfilename hfile hread]
        exact encrypt_of_le (Nat.le_of_not_lt h)
      · rw [getDataFromFile_of_le hfilename hfile (Nat.le_of_not_lt hread)]
        rfl
    unfold testFiles at hdisk
    rw [hfirst] at hdisk
    cases hdisk

theorem base64_filePipeline_plain :
    let disk : Disk :=
      { files := fun f => if f = .lit "plain" then some [1, 2, 3, 4, 5] else none
        writable := fun _ => true }
    FilePipeline (fun _ => 7) (fun _ => 7) disk (.lit "plain") (.lit "enc") (.lit "dec")
      [1, 2, 3, 4, 5] :=
  (base64_filePipeline_iff (by decide) (by decide) (by decide) rfl rfl (by decide)).mpr
    (by decide)

end Files

end Base64

end NanomsgDemo.Utils

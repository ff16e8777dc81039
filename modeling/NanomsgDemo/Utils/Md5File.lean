import NanomsgDemo.Utils.Md5

/-!
# `MD5FileChunk`

The digest of a part of a file, from `libutils/ext/md5hl.c`. The part is read into a
buffer of `BUFSIZ` bytes, and each `read` may return less than it is asked for; what the
system gives is a list here, one entry for each call.

However the reads are cut, what has been read of the part is what the context has
absorbed.
-/

namespace NanomsgDemo.Utils.Md5

open Net Absorb

/-! ## The source -/

/-- `BUFSIZ`. -/
structure BufSize where
  size : Nat
  pos : 0 < size
  lt : size < 2 ^ 31

/-- The loop of `MD5FileChunk`: before a read that takes from `unread`, or after an error. -/
inductive Reading
  | reading (context : MD5_CTX) (n : Int) (unread : List Byte)
  | failed

/-- How much is asked for. -/
def want (bufsiz : BufSize) (n : Int) : Nat := if n > bufsiz.size then bufsiz.size else n.toNat

theorem want_le (bufsiz : BufSize) (n : Int) : want bufsiz n ≤ bufsiz.size := by
  unfold want
  split <;> omega

theorem length_given (bufsiz : BufSize) (n : Int) (unread : List Byte) (k : Nat) :
    (unread.take (min k (want bufsiz n))).length < 2 ^ 32 := by
  have hwant := want_le bufsiz n
  have hlt := bufsiz.lt
  rw [List.length_take]
  omega

/-- What a read returns when the system is ready to give `k` bytes. -/
def given (bufsiz : BufSize) (n : Int) (unread : List Byte) (k : Nat) : Bytes :=
  ⟨unread.take (min k (want bufsiz n)), length_given bufsiz n unread k⟩

/-- A round of the loop, if it is not over. `none` is a read that fails. -/
def readStep (bufsiz : BufSize) (r : Reading) (give : Option Nat) : Option Reading :=
  match r with
  | .failed => some .failed
  | .reading context n unread =>
      if n > 0 then
        match give with
        | none => some .failed
        | some k =>
            let i := given bufsiz n unread k
            (md5Update context i).map fun context =>
              .reading context (n - i.bytes.length) (unread.drop i.bytes.length)
      else some r

/-- Where a call is: it has returned, or waits for more. -/
inductive Outcome
  | returned (text : Option (List Byte))
  | waiting

/--
An open file, and the size `fstat` finds, `none` if it fails. `off_t` is a `long`, of 32
bits here, so it does fail from 2 GiB on.
-/
structure OpenFile where
  content : List Byte
  stSize : Option Int32
  sized : ∀ size ∈ stSize, size.toInt = content.length

/-- A file whose size `fstat` finds. -/
def OpenFile.found (content : List Byte) (h : content.length < 2 ^ 31) : OpenFile where
  content := content
  stSize := some (int32 content.length)
  sized size hsize := by
    rw [← Option.mem_some_iff.mp hsize]
    exact int32_toInt_of_lt h

/-- `ofs`, not behind the end of the file. -/
def chunkOfs (size ofs : Int32) : Int32 := if ofs > size then size else ofs

/-- `len`, not behind the end of the file. Zero is for the rest of it. -/
def chunkLen (size ofs len : Int32) : Int32 :=
  if len = 0 ∨ len > size - ofs then size - ofs else len

/--
`MD5FileChunk`; `none` for a file that cannot be opened. To go to a place before the
beginning fails.
-/
def md5FileChunk (bufsiz : BufSize) (ctx : MD5_CTX) (file : Option OpenFile) (ofs len : Int32)
    (gives : List (Option Nat)) (buf mem : Bool) : Option Outcome :=
  match file with
  | none => some (.returned none)
  | some f =>
      match f.stSize with
      | none => some (.returned none)
      | some size =>
          let ofs := chunkOfs size ofs
          let len := chunkLen size ofs len
          if ofs < 0 then some (.returned none)
          else
            (gives.foldlM (readStep bufsiz)
              (.reading (md5Init ctx) len.toInt (f.content.drop ofs.toInt.toNat))).bind fun r =>
                match r with
                | .failed => some (.returned none)
                | .reading context n _ =>
                    if n > 0 then some .waiting else (md5End context buf mem).map .returned

/-- `MD5File`. -/
def md5File (bufsiz : BufSize) (ctx : MD5_CTX) (file : Option OpenFile)
    (gives : List (Option Nat)) (buf mem : Bool) : Option Outcome :=
  md5FileChunk bufsiz ctx file 0 0 gives buf mem

/-! ## Reading -/

/-- The first `j` bytes have been read, of the `total` that are wanted. -/
def Read (data : List Byte) (total : Int) (j : Nat) : Reading → Prop
  | .failed => False
  | .reading context n unread =>
      j ≤ total.toNat ∧ Absorbed context (data.take j) ∧ n = total - j ∧ unread = data.drop j

section Reads

variable (bufsiz : BufSize) {data : List Byte} {total : Int} {j : Nat} {r : Reading}

/-- A read that gives something gets on, until the end. -/
theorem readStep_some (htotal : total.toNat ≤ data.length) (h : Read data total j r) (k : Nat) :
    ∃ r' j', readStep bufsiz r (some k) = some r' ∧ Read data total j' r' ∧ j ≤ j' ∧
      (0 < k → min (j + 1) total.toNat ≤ j') := by
  cases r with
  | failed => exact h.elim
  | reading context n unread =>
      obtain ⟨hj, habsorbed, hn, hunread⟩ := h
      unfold readStep
      dsimp only
      by_cases hmore : n > 0
      · have hpos := bufsiz.pos
        have hlt := bufsiz.lt
        have hwant : want bufsiz n ≤ n.toNat ∧ want bufsiz n ≤ bufsiz.size ∧
            0 < want bufsiz n := by
          unfold want
          split <;> omega
        have hi : (given bufsiz n unread k).bytes.length = min k (want bufsiz n) := by
          show (unread.take (min k (want bufsiz n))).length = _
          rw [List.length_take, hunread, List.length_drop]
          omega
        obtain ⟨context', hupdate, habsorbed'⟩ := (md5Update_eq habsorbed
          (given bufsiz n unread k)).2 (not_wraps_of_le (by omega))
        have htake : data.take j ++ (given bufsiz n unread k).bytes =
            data.take (j + min k (want bufsiz n)) := by
          show data.take j ++ unread.take _ = _
          rw [hunread, List.take_add]
        rw [htake] at habsorbed'
        rw [if_pos hmore, hupdate, Option.map_some]
        refine ⟨_, j + min k (want bufsiz n), rfl, ⟨by omega, habsorbed', ?_, ?_⟩, by omega, ?_⟩
        · rw [hi]
          omega
        · rw [hi, hunread, List.drop_drop]
        · intro hk
          omega
      · rw [if_neg hmore]
        refine ⟨_, j, rfl, ⟨hj, habsorbed, hn, hunread⟩, Nat.le_refl j, ?_⟩
        intro _
        omega

theorem readStep_none (h : Read data total j r) :
    readStep bufsiz r none = some .failed ∨ readStep bufsiz r none = some r := by
  cases r with
  | failed => exact h.elim
  | reading context n unread =>
      unfold readStep
      dsimp only
      split
      · exact Or.inl rfl
      · exact Or.inr rfl

theorem foldlM_failed (gives : List (Option Nat)) :
    gives.foldlM (readStep bufsiz) .failed = some .failed := by
  induction gives with
  | nil => rfl
  | cons give gives ih =>
      rw [List.foldlM_cons]
      exact ih

/-- Whatever the system gives, the loop has failed or has read on. -/
theorem reads (htotal : total.toNat ≤ data.length) (gives : List (Option Nat))
    (h : Read data total j r) :
    ∃ r', gives.foldlM (readStep bufsiz) r = some r' ∧
      (r' = .failed ∨ ∃ j', Read data total j' r') := by
  induction gives generalizing j r with
  | nil => exact ⟨r, rfl, Or.inr ⟨j, h⟩⟩
  | cons give gives ih =>
      rw [List.foldlM_cons]
      cases give with
      | none =>
          rcases readStep_none bufsiz h with hstep | hstep
          · rw [hstep]
            exact ⟨_, foldlM_failed bufsiz gives, Or.inl rfl⟩
          · rw [hstep]
            exact ih h
      | some k =>
          obtain ⟨r', j', hstep, hread, -⟩ := readStep_some bufsiz htotal h k
          rw [hstep]
          exact ih hread

/-- As many reads as there are bytes are enough, if each gives something. -/
theorem reads_all (htotal : total.toNat ≤ data.length) {gives : List (Option Nat)}
    (hgives : ∀ give ∈ gives, ∃ k, 0 < k ∧ give = some k) (h : Read data total j r) :
    ∃ r' j', gives.foldlM (readStep bufsiz) r = some r' ∧ Read data total j' r' ∧
      min (j + gives.length) total.toNat ≤ j' := by
  induction gives generalizing j r with
  | nil => exact ⟨r, j, rfl, h, Nat.min_le_left _ _⟩
  | cons give gives ih =>
      obtain ⟨k, hk, rfl⟩ := hgives give List.mem_cons_self
      obtain ⟨r', j', hstep, hread, -, hmore⟩ := readStep_some bufsiz htotal h k
      obtain ⟨r'', j'', hrest, hread', hle⟩ :=
        ih (fun g hg => hgives g (List.mem_cons_of_mem _ hg)) hread
      have := hmore hk
      refine ⟨r'', j'', ?_, hread', ?_⟩
      · rw [List.foldlM_cons, hstep]
        exact hrest
      · rw [List.length_cons]
        omega

end Reads

/-! ## The part of the file -/

/-- The bytes from `ofs` on, `len` of them if there are as many; all, if `len` is zero. -/
def chunk (content : List Byte) (ofs len : Int32) : List Byte :=
  let rest := content.drop ofs.toInt.toNat
  if len = 0 then rest else rest.take len.toInt.toNat

theorem chunk_zero (content : List Byte) : chunk content 0 0 = content := rfl

section Ends

variable {size ofs : Int32}

theorem toInt_chunkOfs (size ofs : Int32) :
    (chunkOfs size ofs).toInt = if size.toInt < ofs.toInt then size.toInt else ofs.toInt := by
  unfold chunkOfs
  simp only [gt_iff_lt, Int32.lt_iff_toInt_lt]
  exact apply_ite Int32.toInt _ _ _

/-- Between the beginning and the end nothing overflows. -/
theorem toInt_chunkLen (hofs : 0 ≤ ofs.toInt) (hle : ofs.toInt ≤ size.toInt) (len : Int32) :
    (chunkLen size ofs len).toInt =
      if len.toInt = 0 ∨ size.toInt - ofs.toInt < len.toInt then size.toInt - ofs.toInt
      else len.toInt := by
  have hlt := size.toInt_lt
  have hsub : (size - ofs).toInt = size.toInt - ofs.toInt := by
    rw [Int32.toInt_sub]
    exact Int.bmod_eq_of_le (by omega) (by omega)
  have hzero : len = 0 ↔ len.toInt = 0 := Int32.toInt_inj.symm
  unfold chunkLen
  simp only [gt_iff_lt, Int32.lt_iff_toInt_lt, hzero, ← hsub]
  exact apply_ite Int32.toInt _ _ _

end Ends

/-- What is read of the file is the part of it. -/
theorem take_chunk {f : OpenFile} {size : Int32} (hsize : f.stSize = some size) {ofs : Int32}
    (hofs : 0 ≤ ofs.toInt) (len : Int32) :
    (chunkLen size (chunkOfs size ofs) len).toInt.toNat ≤
        (f.content.drop (chunkOfs size ofs).toInt.toNat).length ∧
      (f.content.drop (chunkOfs size ofs).toInt.toNat).take
        (chunkLen size (chunkOfs size ofs) len).toInt.toNat = chunk f.content ofs len := by
  have hcontent := f.sized size hsize
  have hstart := toInt_chunkOfs size ofs
  obtain ⟨hfrom, hto⟩ : 0 ≤ (chunkOfs size ofs).toInt ∧ (chunkOfs size ofs).toInt ≤ size.toInt := by
    rw [hstart]
    split <;> omega
  have hend := toInt_chunkLen hfrom hto len
  -- beyond the end there is nothing, from `ofs` on as from the end on
  have hdrop : f.content.drop (chunkOfs size ofs).toInt.toNat =
      f.content.drop ofs.toInt.toNat := by
    rw [hstart]
    split
    · rw [List.drop_of_length_le (by omega), List.drop_of_length_le (by omega)]
    · rfl
  have hlen : (f.content.drop ofs.toInt.toNat).length =
      (size.toInt - (chunkOfs size ofs).toInt).toNat := by
    rw [← hdrop, List.length_drop]
    omega
  have hzero : len = 0 ↔ len.toInt = 0 := Int32.toInt_inj.symm
  unfold chunk
  dsimp only
  rw [hdrop, hend]
  by_cases hrest : len.toInt = 0 ∨ size.toInt - (chunkOfs size ofs).toInt < len.toInt
  · rw [if_pos hrest]
    refine ⟨by omega, ?_⟩
    rw [List.take_of_length_le (by omega)]
    split
    · rfl
    · rename_i hne
      have := hrest.resolve_left (mt hzero.mpr hne)
      rw [List.take_of_length_le (by omega)]
  · obtain ⟨hne, hshort⟩ := not_or.mp hrest
    rw [if_neg hrest, if_neg (mt hzero.mp hne)]
    exact ⟨by omega, rfl⟩

section Chunk

variable {bufsiz : BufSize} {ctx : MD5_CTX} {f : OpenFile} {size ofs len : Int32} {buf mem : Bool}

/-- What is returned once the loop is over. -/
theorem md5End_of_read {data : List Byte} {total : Int} {context : MD5_CTX} {n : Int}
    {unread : List Byte} {j : Nat} (h : Read data total j (.reading context n unread))
    (hn : ¬ n > 0) :
    (md5End context buf mem).map Outcome.returned =
      some (.returned
        (if buf ∨ mem then some (digestText (data.take total.toNat)) else none)) := by
  obtain ⟨hj, habsorbed, hleft, -⟩ := h
  have hall : j = total.toNat := by omega
  rw [hall] at habsorbed
  rw [md5End_eq habsorbed]
  rfl

theorem md5FileChunk_of_nonneg (hsize : f.stSize = some size) (hofs : 0 ≤ ofs.toInt)
    (gives : List (Option Nat)) :
    md5FileChunk bufsiz ctx (some f) ofs len gives buf mem =
      (gives.foldlM (readStep bufsiz)
        (.reading (md5Init ctx) (chunkLen size (chunkOfs size ofs) len).toInt
          (f.content.drop (chunkOfs size ofs).toInt.toNat))).bind fun r =>
            match r with
            | .failed => some (.returned none)
            | .reading context n _ =>
                if n > 0 then some .waiting else (md5End context buf mem).map .returned := by
  have hcontent := f.sized size hsize
  have hneg : ¬ chunkOfs size ofs < 0 := by
    rw [Int32.lt_iff_toInt_lt, toInt_chunkOfs, Int32.toInt_zero]
    split <;> omega
  unfold md5FileChunk
  dsimp only
  rw [hsize]
  dsimp only
  rw [if_neg hneg]

/-- No digest of a file that `fstat` fails for, nor of a place before the beginning. -/
theorem md5FileChunk_null (h : f.stSize = none ∨ ofs.toInt < 0) (gives : List (Option Nat)) :
    md5FileChunk bufsiz ctx (some f) ofs len gives buf mem = some (.returned none) := by
  unfold md5FileChunk
  dsimp only
  cases hsize : f.stSize with
  | none => rfl
  | some size =>
      have hofs : ofs.toInt < 0 := h.resolve_left (by rw [hsize]; exact Option.some_ne_none size)
      have hcontent := f.sized size hsize
      have hneg : chunkOfs size ofs < 0 := by
        rw [Int32.lt_iff_toInt_lt, toInt_chunkOfs, Int32.toInt_zero, if_neg (by omega)]
        exact hofs
      exact if_pos hneg

/-- Before the first read. -/
theorem read_init (h : ctx.buffer.length = 64) (data : List Byte) (total : Int) :
    Read data total 0 (.reading (md5Init ctx) total data) :=
  ⟨Nat.zero_le _, md5Init_absorbed h, (Int.sub_zero total).symm, rfl⟩

theorem md5FileChunk_text (h : ctx.buffer.length = 64) (gives : List (Option Nat)) :
    ∃ o, md5FileChunk bufsiz ctx (some f) ofs len gives buf mem = some o ∧
      ∀ t, o = .returned (some t) → t = digestText (chunk f.content ofs len) := by
  by_cases hnull : f.stSize = none ∨ ofs.toInt < 0
  · refine ⟨.returned none, md5FileChunk_null hnull gives, ?_⟩
    intro t ht
    cases ht
  · obtain ⟨hstat, hofs⟩ := not_or.mp hnull
    obtain ⟨size, hsize⟩ := Option.ne_none_iff_exists'.mp hstat
    have hofs : 0 ≤ ofs.toInt := Int.not_lt.mp hofs
    obtain ⟨htotal, htake⟩ := take_chunk hsize hofs len
    obtain ⟨r, hloop, hr⟩ := reads bufsiz htotal gives (read_init h _ _)
    rw [md5FileChunk_of_nonneg hsize hofs, hloop, Option.bind_some]
    rcases hr with rfl | ⟨j, hread⟩
    · refine ⟨_, rfl, ?_⟩
      intro t ht
      cases ht
    · cases r with
      | failed => exact hread.elim
      | reading context n unread =>
          dsimp only
          by_cases hn : n > 0
          · rw [if_pos hn]
            refine ⟨_, rfl, ?_⟩
            intro t ht
            cases ht
          · rw [if_neg hn, md5End_of_read hread hn, htake]
            refine ⟨_, rfl, ?_⟩
            intro t ht
            split at ht
            · cases ht
              rfl
            · cases ht

theorem md5FileChunk_returns (h : ctx.buffer.length = 64) (hstat : f.stSize.isSome)
    (len : Int32) {gives : List (Option Nat)} (buf mem : Bool) (hofs : 0 ≤ ofs.toInt)
    (hgives : ∀ give ∈ gives, ∃ k, 0 < k ∧ give = some k)
    (hlen : (chunk f.content ofs len).length ≤ gives.length) :
    md5FileChunk bufsiz ctx (some f) ofs len gives buf mem =
      some (.returned
        (if buf ∨ mem then some (digestText (chunk f.content ofs len)) else none)) := by
  obtain ⟨size, hsize⟩ := Option.isSome_iff_exists.mp hstat
  obtain ⟨htotal, htake⟩ := take_chunk hsize hofs len
  obtain ⟨r, j, hloop, hread, hj⟩ := reads_all bufsiz htotal hgives (read_init h _ _)
  rw [← htake, List.length_take, Nat.min_eq_left htotal] at hlen
  rw [md5FileChunk_of_nonneg hsize hofs, hloop, Option.bind_some]
  cases r with
  | failed => exact hread.elim
  | reading context n unread =>
      have hn : ¬ n > 0 := by
        obtain ⟨hle, -, hn, -⟩ := hread
        omega
      dsimp only
      rw [if_neg hn, md5End_of_read hread hn, htake]

end Chunk

/--
**The digest of a part of a file, whatever the reads give.**

No sequence of reads leads to another text than that of the digest of the part. If
`fstat` finds a size, and no read fails or comes back empty, there is one after as many
of them as the part has bytes. `MD5File` is for the whole file.
-/
theorem md5FileChunk_digest (bufsiz : BufSize) {ctx : MD5_CTX} (h : ctx.buffer.length = 64)
    (f : OpenFile) (ofs len : Int32) (gives : List (Option Nat)) (buf mem : Bool) :
    (∃ o, md5FileChunk bufsiz ctx (some f) ofs len gives buf mem = some o ∧
      ∀ t, o = .returned (some t) → t = digestText (chunk f.content ofs len)) ∧
    (f.stSize.isSome → (∀ give ∈ gives, ∃ k, 0 < k ∧ give = some k) →
      (0 ≤ ofs.toInt → (chunk f.content ofs len).length ≤ gives.length →
        md5FileChunk bufsiz ctx (some f) ofs len gives buf mem =
          some (.returned
            (if buf ∨ mem then some (digestText (chunk f.content ofs len)) else none))) ∧
      (f.content.length ≤ gives.length →
        md5File bufsiz ctx (some f) gives buf mem =
          some (.returned (if buf ∨ mem then some (digestText f.content) else none)))) := by
  refine ⟨md5FileChunk_text h gives, ?_⟩
  intro hstat hgives
  refine ⟨fun hofs hlen => md5FileChunk_returns h hstat len buf mem hofs hgives hlen, ?_⟩
  intro hlen
  have hwhole : md5File bufsiz ctx (some f) gives buf mem =
      some (.returned (if buf ∨ mem then some (digestText (chunk f.content 0 0)) else none)) :=
    md5FileChunk_returns h hstat 0 buf mem (by decide) hgives
      (by rw [chunk_zero]; exact hlen)
  rw [chunk_zero] at hwhole
  exact hwhole

/-- Two bytes of three, and one at a time. -/
theorem md5FileChunk_digest_two :
    md5FileChunk ⟨8192, by decide, by decide⟩ .fresh
      (some (.found [1, 2, 3] (by decide))) 1 0 [some 1, some 1] true true =
        some (.returned (some (digestText [2, 3]))) :=
  ((md5FileChunk_digest ⟨8192, by decide, by decide⟩ (newBuffer_length 64)
    (.found [1, 2, 3] (by decide)) 1 0 [some 1, some 1] true true).2 rfl (by simp)).1
      (by decide) (by decide)

end NanomsgDemo.Utils.Md5

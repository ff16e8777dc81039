import Mathlib.Data.List.Pairwise
import NanomsgDemo.Lib.Memory
import NanomsgDemo.Lib.Runs
import NanomsgDemo.Net.CacheQueue

/-!
# MemoryPool

`libnet/MemoryPool.h` and `MemoryPool.tcc`: elements of one type in blocks of a fixed
size. A block begins with a pointer to the one before, and a slot that is not used with a
pointer to the next such slot, in the bytes that were the element's.

The pool and its user share the memory. The user writes to the elements it holds, and
deletes each of them once; `operator new` hands out blocks that have nothing in common.
Whatever the two of them do, no element ever changes under its user, the destructor finds
all blocks, and there are no more slots than elements were held at one time, and no more
blocks than these slots need.
-/

namespace NanomsgDemo.Net

open Memory Runs

/-- What `MemoryPool<T, BlockSize>` is compiled for. -/
structure Layout where
  /-- `sizeof(slot_pointer_)`, and what a pointer is aligned to. -/
  pointer : Nat
  /-- `sizeof(slot_type_)`. -/
  size : Nat
  /-- `alignof(slot_type_)`. -/
  align : Nat
  blockSize : Nat
  pointer_pos : 0 < pointer
  /-- A slot is an element or a pointer. -/
  pointer_le : pointer ≤ size
  align_dvd_size : align ∣ size
  pointer_dvd_align : pointer ∣ align
  align_dvd_word : align ∣ 256 ^ pointer
  /-- The `static_assert`. -/
  two_slots : 2 * size ≤ blockSize

/-- The members of a pool, and the memory they point into. A null pointer is 0. -/
structure MemoryPool where
  currentBlock : Nat
  currentSlot : Nat
  lastSlot : Nat
  freeSlots : Nat
  mem : Mem

namespace MemoryPool

variable (L : Layout)

/-- `MemoryPool()`. -/
def init (m : Mem) : MemoryPool := ⟨0, 0, 0, 0, m⟩

/-- `padPointer`, with the arithmetic of `size_t`. -/
def padPointer (p align : Nat) : Nat :=
  (align + 256 ^ L.pointer - p % 256 ^ L.pointer) % 256 ^ L.pointer % align

/-- `allocateBlock`, with `newBlock` from `operator new`. -/
def allocateBlock (s : MemoryPool) (newBlock : Nat) : MemoryPool :=
  let body := newBlock + L.pointer
  { s with
    mem := storeWord L.pointer s.mem newBlock s.currentBlock
    currentBlock := newBlock
    currentSlot := body + padPointer L body L.align
    lastSlot := newBlock + L.blockSize - L.size + 1 }

/--
`allocate`, with what comes from `operator new`, should a block be needed: `none` if it
throws, and `allocate` with it.
-/
def allocate (s : MemoryPool) (new : Option Nat) : Option (MemoryPool × Nat) :=
  if s.freeSlots ≠ 0 then
    some ({ s with freeSlots := loadWord L.pointer s.mem s.freeSlots }, s.freeSlots)
  else do
    let s ← if s.currentSlot ≥ s.lastSlot then new.map (s.allocateBlock L) else some s
    return ({ s with currentSlot := s.currentSlot + L.size }, s.currentSlot)

/-- `deallocate`. -/
def deallocate (s : MemoryPool) (p : Nat) : MemoryPool :=
  if p ≠ 0 then
    { s with mem := storeWord L.pointer s.mem p s.freeSlots, freeSlots := p }
  else s

/-- `newElement`, of an element that is constructed as `value`. -/
def newElement (s : MemoryPool) (new : Option Nat) (value : List Byte) :
    Option (MemoryPool × Nat) := do
  let (s, result) ← s.allocate L new
  return ({ s with mem := store s.mem result value }, result)

/-- `deleteElement`. -/
def deleteElement (s : MemoryPool) (p : Nat) : MemoryPool :=
  if p ≠ 0 then s.deallocate L p else s

/-- `~MemoryPool()`: the blocks it deletes, if there are no more than `fuel` of them. -/
def destroy (s : MemoryPool) (fuel : Nat) : Option (List Nat) :=
  walk L.pointer s.mem fuel s.currentBlock

end MemoryPool

/-! ## Runs -/

/-- A pool, and what `operator new` and the user of the pool know. -/
structure Pooled where
  pool : MemoryPool
  /-- The blocks that have been handed out, the last one first. -/
  blocks : List Nat
  /-- The elements that the user holds. -/
  live : List Nat
  /-- What the user has put into them. -/
  known : Nat → Option Byte

inductive PoolAct where
  | newElement (new : Option Nat) (value : List Byte)
  /-- The user writes to an element, from its `i`th byte on. -/
  | write (p i : Nat) (bytes : List Byte)
  | deleteElement (p : Nat)
  deriving DecidableEq, Repr

namespace Pooled

variable (L : Layout)

def init (m : Mem) : Pooled := ⟨.init m, [], [], fun _ => none⟩

def TakesBlock (w : Pooled) : Prop :=
  w.pool.freeSlots = 0 ∧ w.pool.currentSlot ≥ w.pool.lastSlot

instance (w : Pooled) : Decidable w.TakesBlock := inferInstanceAs (Decidable (_ ∧ _))

def step (w : Pooled) : PoolAct → Pooled
  | .newElement new value =>
      match w.pool.newElement L new value with
      | none => w
      | some (pool, p) =>
          { pool
            blocks := if w.TakesBlock then new.toList ++ w.blocks else w.blocks
            live := p :: w.live
            known := fun a => if p ≤ a then (value[a - p]?).or (w.known a) else w.known a }
  | .write p i bytes =>
      { w with
        pool := { w.pool with mem := store w.pool.mem (p + i) bytes }
        known := fun a =>
          if p + i ≤ a then (bytes[a - (p + i)]?).or (w.known a) else w.known a }
  | .deleteElement p =>
      { w with
        pool := w.pool.deleteElement L p
        live := w.live.erase p
        known := fun a => if p ≠ 0 ∧ p ≤ a ∧ a < p + L.size then none else w.known a }

/-- A block that `operator new` may hand out. -/
structure Fresh (blocks : List Nat) (b : Nat) : Prop where
  ne_null : b ≠ 0
  aligned : L.pointer ∣ b
  fits : b + L.blockSize < 256 ^ L.pointer
  apart : ∀ c ∈ blocks, Apart L.blockSize L.blockSize b c

/-- What `operator new` and the user keep to. -/
def Admissible (w : Pooled) : PoolAct → Prop
  | .newElement new value =>
      value.length ≤ L.size ∧ (w.TakesBlock → ∀ b ∈ new, Fresh L w.blocks b)
  | .write p i bytes => p ∈ w.live ∧ i + bytes.length ≤ L.size
  | .deleteElement p => p = 0 ∨ p ∈ w.live

/-- The greatest number of elements that are held at one time. -/
def peak : Pooled → List PoolAct → Nat
  | w, [] => w.live.length
  | w, a :: as => max w.live.length (peak (w.step L a) as)

end Pooled

/-! ## Slots -/

namespace Layout

variable (L : Layout)

/-- A slot of the block at `b`, behind the pointer to the block before. -/
def IsSlot (b p : Nat) : Prop :=
  L.align ∣ p ∧ b + L.pointer ≤ p ∧ p + L.size ≤ b + L.blockSize

instance (b p : Nat) : Decidable (L.IsSlot b p) := inferInstanceAs (Decidable (_ ∧ _ ∧ _))

/-- The first slot of a block. -/
def start (b : Nat) : Nat := b + L.pointer + MemoryPool.padPointer L (b + L.pointer) L.align

/-- How many slots there are in the block at `b`. -/
def slotsOf (b : Nat) : Nat := (b + L.blockSize - L.start b) / L.size

theorem size_pos : 0 < L.size := Nat.lt_of_lt_of_le L.pointer_pos L.pointer_le

theorem align_pos : 0 < L.align := Nat.pos_of_dvd_of_pos L.align_dvd_size L.size_pos

theorem add_le_of_dvd {a b c : Nat} (hb : a ∣ b) (hc : a ∣ c) (h : b < c) : b + a ≤ c := by
  obtain ⟨i, rfl⟩ := hb
  obtain ⟨k, rfl⟩ := hc
  have hik : i + 1 ≤ k := Nat.lt_of_mul_lt_mul_left h
  rw [← Nat.mul_succ]
  exact Nat.mul_le_mul_left a hik

variable {L} {b p : Nat}

theorem align_dvd_start (hb : b + L.pointer < 256 ^ L.pointer) : L.align ∣ L.start b := by
  unfold start MemoryPool.padPointer
  rw [Nat.mod_eq_of_lt hb, Nat.mod_mod_of_dvd _ L.align_dvd_word]
  refine Nat.dvd_of_mod_eq_zero ?_
  have hsum : b + L.pointer + (L.align + 256 ^ L.pointer - (b + L.pointer)) =
      L.align + 256 ^ L.pointer := Nat.add_sub_of_le (by omega)
  rw [Nat.add_mod_mod, hsum, Nat.add_mod_left, Nat.mod_eq_zero_of_dvd L.align_dvd_word]

/-- A slot's size is enough for the pointer and what is needed to align the first slot. -/
theorem start_bounds (hb : L.pointer ∣ b) (hword : b + L.pointer < 256 ^ L.pointer) :
    b + L.pointer ≤ L.start b ∧ L.start b ≤ b + L.size := by
  have hpad : MemoryPool.padPointer L (b + L.pointer) L.align < L.align :=
    Nat.mod_lt _ L.align_pos
  have hbody : L.pointer ∣ b + L.pointer := Nat.dvd_add hb (Nat.dvd_refl _)
  have hdvd : L.pointer ∣ MemoryPool.padPointer L (b + L.pointer) L.align :=
    (Nat.dvd_add_right hbody).mp (Nat.dvd_trans L.pointer_dvd_align (align_dvd_start hword))
  have hfits := add_le_of_dvd hdvd L.pointer_dvd_align hpad
  have hsize := Nat.le_of_dvd L.size_pos L.align_dvd_size
  unfold start
  omega

/-- No slot comes before the first. -/
theorem IsSlot.start_le (h : L.IsSlot b p) (hword : b + L.pointer < 256 ^ L.pointer) :
    L.start b ≤ p := by
  have hpad : MemoryPool.padPointer L (b + L.pointer) L.align < L.align :=
    Nat.mod_lt _ L.align_pos
  by_contra hlt
  have hnext := add_le_of_dvd h.1 (align_dvd_start hword) (Nat.lt_of_not_le hlt)
  have hlow := h.2.1
  unfold start at hnext
  omega

/-- As many slots as there are in a block, and no more, fit into it. -/
theorem length_le_slotsOf {ps : List Nat} (hword : b + L.pointer < 256 ^ L.pointer)
    (hslots : ∀ p ∈ ps, L.IsSlot b p) (hapart : ps.Pairwise (Apart L.size L.size)) :
    ps.length ≤ L.slotsOf b := by
  have hsize := L.size_pos
  -- each lies in a stretch of its own
  have hnodup : (ps.map fun p => (p - L.start b) / L.size).Nodup := by
    refine List.pairwise_map.mpr (hapart.imp_of_mem fun {p q} hp hq hpq => ?_)
    have hfirst := (hslots p hp).start_le hword
    have hsecond := (hslots q hq).start_le hword
    intro heq
    have hrest := Nat.div_add_mod (p - L.start b) L.size
    have hrest' := Nat.div_add_mod (q - L.start b) L.size
    have hlt := Nat.mod_lt (p - L.start b) hsize
    have hlt' := Nat.mod_lt (q - L.start b) hsize
    rw [← heq] at hrest'
    unfold Apart at hpq
    omega
  have hsubset : (ps.map fun p => (p - L.start b) / L.size) ⊆ List.range (L.slotsOf b) := by
    intro k hk
    obtain ⟨p, hp, rfl⟩ := List.mem_map.mp hk
    have hfirst := (hslots p hp).start_le hword
    have hfit := (hslots p hp).2.2
    rw [List.mem_range, ← Nat.succ_le_iff]
    unfold slotsOf
    rw [Nat.le_div_iff_mul_le hsize, Nat.succ_mul]
    have hdiv := Nat.div_mul_le_self (p - L.start b) L.size
    omega
  have hlen := List.Nodup.length_le_of_subset hnodup hsubset
  rwa [List.length_map, List.length_range] at hlen

/-- So do no more slots into several blocks than there are in all of them. -/
theorem length_le_sum_slotsOf {bs : List Nat} (hword : ∀ b ∈ bs, b + L.pointer < 256 ^ L.pointer) :
    ∀ {ps : List Nat}, (∀ p ∈ ps, ∃ b ∈ bs, L.IsSlot b p) → ps.Pairwise (Apart L.size L.size) →
      ps.length ≤ (bs.map L.slotsOf).sum := by
  induction bs with
  | nil =>
      intro ps hslots _
      have hnil : ps = [] := List.eq_nil_iff_forall_not_mem.mpr fun p hp => by
        obtain ⟨b, hb, -⟩ := hslots p hp
        exact absurd hb List.not_mem_nil
      rw [hnil]
      exact Nat.zero_le _
  | cons b bs ih =>
      intro ps hslots hapart
      have hhere : (ps.filter (decide <| L.IsSlot b ·)).length ≤ L.slotsOf b := by
        refine length_le_slotsOf (hword b List.mem_cons_self) ?_ (hapart.filter _)
        intro p hp
        exact of_decide_eq_true (List.mem_filter.mp hp).2
      have hthere : (ps.filter fun p => !decide (L.IsSlot b p)).length ≤
          (bs.map L.slotsOf).sum := by
        refine ih (fun c hc => hword c (List.mem_cons_of_mem b hc)) ?_ (hapart.filter _)
        intro p hp
        obtain ⟨hp, hnot⟩ := List.mem_filter.mp hp
        obtain ⟨c, hc, hslot⟩ := hslots p hp
        rcases List.mem_cons.mp hc with rfl | hc
        · exact absurd hslot (by simpa using hnot)
        · exact ⟨c, hc, hslot⟩
      have hlen := List.length_eq_length_filter_add (l := ps) fun p => decide (L.IsSlot b p)
      rw [List.map_cons, List.sum_cons]
      omega

end Layout

section Slots

variable {L : Layout} {s : MemoryPool} {blocks slots : List Nat} {b p : Nat}

/-- The last block, at `b`, when `slots` have been made, `full` of them in others. -/
structure Opened (L : Layout) (s : MemoryPool) (slots : List Nat) (b full : Nat) : Prop where
  last : s.lastSlot = b + L.blockSize - L.size + 1
  le : s.currentSlot ≤ b + L.blockSize
  /-- What is left of it is not used. -/
  unused : ∀ p ∈ slots, p + L.size ≤ s.currentSlot ∨ b + L.blockSize ≤ p
  start_bounds : b + L.pointer ≤ L.start b ∧ L.start b ≤ b + L.size
  aligned : L.align ∣ L.start b
  made : ∃ j, s.currentSlot = L.start b + j * L.size ∧ slots.length = full + j

def Rest (L : Layout) (s : MemoryPool) (slots : List Nat) : List Nat → Prop
  | [] => s.currentSlot = 0 ∧ s.lastSlot = 0
  | b :: blocks => Opened L s slots b (blocks.map L.slotsOf).sum

/-- How the blocks are cut into `slots`. -/
structure Carved (L : Layout) (s : MemoryPool) (blocks slots : List Nat) : Prop where
  fits : ∀ b ∈ blocks, b + L.blockSize < 256 ^ L.pointer
  blocks_apart : blocks.Pairwise (Apart L.blockSize L.blockSize)
  inside : ∀ p ∈ slots, ∃ b ∈ blocks, L.IsSlot b p
  slots_apart : slots.Pairwise (Apart L.size L.size)
  rest : Rest L s slots blocks

theorem Rest.perm {slots' : List Nat} (hperm : slots.Perm slots') (h : Rest L s slots blocks) :
    Rest L s slots' blocks := by
  cases blocks with
  | nil => exact h
  | cons b blocks =>
      obtain ⟨j, hj, hcount⟩ := h.made
      rw [hperm.length_eq] at hcount
      exact { h with
        unused := fun p hp => h.unused p (hperm.mem_iff.mpr hp)
        made := ⟨j, hj, hcount⟩ }

theorem Carved.perm {slots' : List Nat} (hperm : slots.Perm slots')
    (h : Carved L s blocks slots) : Carved L s blocks slots' where
  fits := h.fits
  blocks_apart := h.blocks_apart
  inside p hp := h.inside p (hperm.mem_iff.mpr hp)
  slots_apart := (hperm.pairwise_iff fun {_ _} hab => hab.symm).mp h.slots_apart
  rest := h.rest.perm hperm

theorem Carved.congr {s' : MemoryPool} (h : Carved L s blocks slots)
    (hcurrent : s'.currentSlot = s.currentSlot) (hlast : s'.lastSlot = s.lastSlot) :
    Carved L s' blocks slots where
  fits := h.fits
  blocks_apart := h.blocks_apart
  inside := h.inside
  slots_apart := h.slots_apart
  rest := by
    have hrest := h.rest
    cases blocks with
    | nil => exact ⟨hcurrent.trans hrest.1, hlast.trans hrest.2⟩
    | cons b blocks =>
        exact { hrest with
          last := hlast.trans hrest.last
          le := hcurrent.symm ▸ hrest.le
          unused := hcurrent.symm ▸ hrest.unused
          made := hcurrent.symm ▸ hrest.made }

/-- No slot reaches into the pointer that a block begins with. -/
theorem Carved.header_apart (h : Carved L s blocks slots) (hp : p ∈ slots) (hb : b ∈ blocks) :
    b + L.pointer ≤ p ∨ p + L.size ≤ b := by
  obtain ⟨c, hc, -, hlow, hhigh⟩ := h.inside p hp
  by_cases hcb : c = b
  · rw [hcb] at hlow
    exact Or.inl hlow
  · have hptr := L.pointer_le
    have htwo := L.two_slots
    rcases h.blocks_apart.forall hc hb hcb with hlt | hgt
    · exact Or.inr (by omega)
    · exact Or.inl (by omega)

/-- A block is added when there is nothing left of the last one. -/
theorem Carved.allocateBlock (h : Carved L s blocks slots) (hfull : s.currentSlot ≥ s.lastSlot)
    (hb : Pooled.Fresh L blocks b) : Carved L (s.allocateBlock L b) (b :: blocks) slots where
  fits := List.forall_mem_cons.mpr ⟨hb.fits, h.fits⟩
  blocks_apart := List.pairwise_cons.mpr ⟨hb.apart, h.blocks_apart⟩
  inside p hp := by
    obtain ⟨c, hc, hslot⟩ := h.inside p hp
    exact ⟨c, List.mem_cons_of_mem b hc, hslot⟩
  slots_apart := h.slots_apart
  rest := by
    have hword : b + L.pointer < 256 ^ L.pointer := by
      have := hb.fits
      have := L.pointer_le
      have := L.two_slots
      omega
    obtain ⟨hlow, hhigh⟩ := Layout.start_bounds hb.aligned hword
    have hsize := L.size_pos
    have htwo := L.two_slots
    refine ⟨rfl, ?_, fun p hp => ?_, ⟨hlow, hhigh⟩, Layout.align_dvd_start hword, 0, ?_, ?_⟩
    · show L.start b ≤ _
      omega
    · obtain ⟨c, hc, -, hclow, hchigh⟩ := h.inside p hp
      show p + L.size ≤ L.start b ∨ _
      rcases hb.apart c hc with hlt | hgt
      · exact Or.inr (by omega)
      · exact Or.inl (by omega)
    · rw [Nat.zero_mul]
      rfl
    · -- the last block has been used up
      have hrest := h.rest
      cases blocks with
      | nil =>
          refine List.length_eq_zero_iff.mpr (List.eq_nil_iff_forall_not_mem.mpr fun p hp => ?_)
          obtain ⟨c, hc, -⟩ := h.inside p hp
          exact absurd hc List.not_mem_nil
      | cons c blocks =>
          obtain ⟨j, hj, hcount⟩ := hrest.made
          have hlast := hrest.last
          have hle := hrest.le
          have hj : L.slotsOf c = j := by
            unfold Layout.slotsOf
            refine Nat.div_eq_of_lt_le ?_ ?_
            · omega
            · rw [Nat.succ_mul]
              omega
          rw [List.map_cons, List.sum_cons, hj]
          omega

/-- The next slot is made, where there is one. -/
theorem Carved.take (h : Carved L s blocks slots) (hroom : s.currentSlot < s.lastSlot) :
    Carved L { s with currentSlot := s.currentSlot + L.size } blocks (s.currentSlot :: slots) ∧
      (blocks.tail.map L.slotsOf).sum < slots.length + 1 := by
  have hrest := h.rest
  cases blocks with
  | nil =>
      obtain ⟨h0, h1⟩ := hrest
      omega
  | cons b blocks =>
      obtain ⟨j, hj, hcount⟩ := hrest.made
      have hlast := hrest.last
      have hlow := hrest.start_bounds.1
      have hfit : s.currentSlot + L.size ≤ b + L.blockSize := by
        have := L.two_slots
        omega
      have hslot : L.IsSlot b s.currentSlot := by
        refine ⟨?_, by omega, hfit⟩
        rw [hj]
        exact Nat.dvd_add hrest.aligned (Nat.dvd_trans L.align_dvd_size (Nat.dvd_mul_left L.size j))
      refine ⟨⟨h.fits, h.blocks_apart, ?_, ?_, ?_⟩, ?_⟩
      · exact List.forall_mem_cons.mpr ⟨⟨b, List.mem_cons_self, hslot⟩, h.inside⟩
      · refine List.pairwise_cons.mpr ⟨fun p hp => ?_, h.slots_apart⟩
        rcases hrest.unused p hp with hlt | hgt
        · exact Or.inr hlt
        · exact Or.inl (by omega)
      · refine ⟨hlast, hfit, List.forall_mem_cons.mpr ⟨Or.inl (Nat.le_refl _), fun p hp => ?_⟩,
          hrest.start_bounds, hrest.aligned, j + 1, ?_, ?_⟩
        · exact (hrest.unused p hp).imp_left fun hlt => Nat.le_add_right_of_le hlt
        · show s.currentSlot + L.size = _
          rw [hj, Nat.succ_mul, Nat.add_assoc]
        · rw [List.length_cons]
          omega
      · rw [List.tail_cons]
        omega

end Slots

/-! ## Steps -/

namespace Pooled

section Steps

variable {L : Layout} {m : Mem} {w : Pooled} {free : List Nat} {b p : Nat}

/-- What holds between the pool, `operator new` and the user, when the slots `free` are free. -/
structure Sound (L : Layout) (m : Mem) (w : Pooled) (free : List Nat) : Prop where
  chain : Chain L.pointer w.pool.mem w.pool.currentBlock w.blocks
  free_chain : Chain L.pointer w.pool.mem w.pool.freeSlots free
  carved : Carved L w.pool w.blocks (w.live ++ free)
  known : ∀ a v, w.known a = some v →
    w.pool.mem a = v ∧ ∃ p ∈ w.live, p ≤ a ∧ a < p + L.size
  outside : ∀ a, (∀ b ∈ w.blocks, a < b ∨ b + L.blockSize ≤ a) → w.pool.mem a = m a

/-- For as many slots as this all blocks are needed. -/
def Counted (L : Layout) (w : Pooled) (n : Nat) : Prop :=
  w.blocks = [] ∨ (w.blocks.tail.map L.slotsOf).sum < n

theorem sound_init (L : Layout) (m : Mem) : Sound L m (init m) [] where
  chain := rfl
  free_chain := rfl
  carved := ⟨by simp [init], List.Pairwise.nil, by simp [init], List.Pairwise.nil, rfl, rfl⟩
  known _ _ h := absurd h (by simp [init])
  outside _ _ := rfl

theorem Sound.mem_block (h : Sound L m w free) (hp : p ∈ w.live ++ free) :
    ∃ b ∈ w.blocks, L.IsSlot b p ∧ p ≠ 0 ∧ p < 256 ^ L.pointer := by
  obtain ⟨b, hb, hslot⟩ := h.carved.inside p hp
  have hfits := h.carved.fits b hb
  have hlow := hslot.2.1
  have hhigh := hslot.2.2
  have hpos := L.pointer_pos
  have hsize := L.size_pos
  exact ⟨b, hb, hslot, by omega, by omega⟩

/-- What is stored into a slot leaves the rest as it is. -/
theorem Sound.store_slot (h : Sound L m w free) (hp : p ∈ w.live ++ free) {i : Nat}
    {bytes : List Byte} (hi : i + bytes.length ≤ L.size) :
    Chain L.pointer (store w.pool.mem (p + i) bytes) w.pool.currentBlock w.blocks ∧
      (∀ a, (∀ b ∈ w.blocks, a < b ∨ b + L.blockSize ≤ a) →
        store w.pool.mem (p + i) bytes a = m a) := by
  obtain ⟨b, hb, hslot, -⟩ := h.mem_block hp
  have hlow := hslot.2.1
  have hhigh := hslot.2.2
  refine ⟨h.chain.store fun x hx => ?_, fun a ha => ?_⟩
  · rcases h.carved.header_apart hp hx with hlt | hgt
    · exact Or.inr (by omega)
    · exact Or.inl (by omega)
  · rw [← h.outside a ha]
    exact store_of_outside (by have := ha b hb; omega)

theorem Sound.write (h : Sound L m w free) (hp : p ∈ w.live) {i : Nat} {bytes : List Byte}
    (hi : i + bytes.length ≤ L.size) : Sound L m (w.step L (.write p i bytes)) free := by
  obtain ⟨hchain, hout⟩ := h.store_slot (List.mem_append_left free hp) hi
  obtain ⟨-, -, hapart⟩ := List.pairwise_append.mp h.carved.slots_apart
  refine ⟨hchain, h.free_chain.store fun q hq => ?_, h.carved.congr rfl rfl, fun a v hv => ?_, hout⟩
  · have hptr := L.pointer_le
    rcases hapart p hp q hq with hlt | hgt
    · exact Or.inl (by omega)
    · exact Or.inr (by omega)
  · show store w.pool.mem (p + i) bytes a = v ∧ ∃ q ∈ w.live, q ≤ a ∧ a < q + L.size
    change (if p + i ≤ a then _ else _) = some v at hv
    by_cases hin : p + i ≤ a ∧ a < p + i + bytes.length
    · obtain ⟨k, rfl⟩ := Nat.exists_eq_add_of_le hin.1
      have hk : k < bytes.length := by omega
      rw [if_pos hin.1, Nat.add_sub_cancel_left, List.getElem?_eq_getElem hk] at hv
      exact ⟨(store_inside hk).trans (Option.some.inj hv), p, hp, by omega, by omega⟩
    · have hold : w.known a = some v := by
        by_cases hle : p + i ≤ a
        · rwa [if_pos hle, List.getElem?_eq_none (by omega)] at hv
        · rwa [if_neg hle] at hv
      rw [store_of_outside (by omega)]
      exact h.known a v hold

theorem Sound.delete (h : Sound L m w free) (hp : p ∈ w.live) :
    Sound L m (w.step L (.deleteElement p)) (p :: free) := by
  have hmem := List.mem_append_left free hp
  obtain ⟨b, hb, hslot, hne, hword⟩ := h.mem_block hmem
  have hptr := L.pointer_le
  have hbytes : 0 + (wordBytes L.pointer w.pool.freeSlots).length ≤ L.size := by
    rwa [length_wordBytes, Nat.zero_add]
  obtain ⟨hchain, hout⟩ := h.store_slot hmem hbytes
  obtain ⟨-, -, hapart⟩ := List.pairwise_append.mp h.carved.slots_apart
  have hfree : w.pool.freeSlots < 256 ^ L.pointer := by
    cases hf : free with
    | nil =>
        rw [h.free_chain.eq_zero_iff.mpr hf]
        exact Nat.pos_of_ne_zero fun h0 => by omega
    | cons q free' =>
        have hchain' := h.free_chain
        rw [hf] at hchain'
        have hq : q ∈ w.live ++ free :=
          List.mem_append_right _ (by rw [hf]; exact List.mem_cons_self)
        rw [hchain'.1]
        exact (h.mem_block hq).choose_spec.2.2.2
  have hpool : w.pool.deleteElement L p =
      { w.pool with
        mem := storeWord L.pointer w.pool.mem p w.pool.freeSlots, freeSlots := p } := by
    unfold MemoryPool.deleteElement MemoryPool.deallocate
    rw [if_pos hne, if_pos hne]
  have hperm : (w.live ++ free).Perm (w.live.erase p ++ p :: free) :=
    ((List.perm_cons_erase hp).append_right free).trans List.perm_middle.symm
  show Sound L m
    { w with
      pool := w.pool.deleteElement L p
      live := w.live.erase p
      known := fun a => if p ≠ 0 ∧ p ≤ a ∧ a < p + L.size then none else w.known a } (p :: free)
  rw [hpool]
  refine ⟨hchain, h.free_chain.push hne hfree fun q hq => ?_,
    (h.carved.perm hperm).congr rfl rfl, fun a v hv => ?_, hout⟩
  · rcases hapart p hp q hq with hlt | hgt
    · exact Or.inl (by omega)
    · exact Or.inr (by omega)
  · change (if p ≠ 0 ∧ p ≤ a ∧ a < p + L.size then _ else _) = some v at hv
    split at hv
    · exact absurd hv (by simp)
    · rename_i hnot
      obtain ⟨heq, q, hq, hle, hlt⟩ := h.known a v hv
      have hqp : q ≠ p := by
        rintro rfl
        exact hnot ⟨hne, hle, hlt⟩
      exact ⟨(storeWord_of_outside (by omega)).trans heq, q, (List.mem_erase_of_ne hqp).mpr hq,
        hle, hlt⟩

/-- A slot is taken that was free. -/
theorem Sound.reuse (h : Sound L m w (p :: free)) : Sound L m
    { w with
      pool := { w.pool with freeSlots := loadWord L.pointer w.pool.mem p }
      live := p :: w.live } free where
  chain := h.chain
  free_chain := h.free_chain.2.2
  carved := (h.carved.perm List.perm_middle).congr rfl rfl
  known a v hv := by
    obtain ⟨heq, q, hq, hin⟩ := h.known a v hv
    exact ⟨heq, q, List.mem_cons_of_mem p hq, hin⟩
  outside := h.outside

/-- A slot is taken of the last block. -/
theorem Sound.take (h : Sound L m w []) (hroom : w.pool.currentSlot < w.pool.lastSlot) :
    Sound L m
      { w with
        pool := { w.pool with currentSlot := w.pool.currentSlot + L.size }
        live := w.pool.currentSlot :: w.live } [] ∧
    (w.blocks.tail.map L.slotsOf).sum < w.live.length + 1 := by
  have hcarved := h.carved
  rw [List.append_nil] at hcarved
  obtain ⟨htake, hcount⟩ := hcarved.take hroom
  refine ⟨⟨h.chain, h.free_chain, ?_, fun a v hv => ?_, h.outside⟩, hcount⟩
  · rw [List.append_nil]
    exact htake
  · obtain ⟨heq, q, hq, hin⟩ := h.known a v hv
    exact ⟨heq, q, List.mem_cons_of_mem _ hq, hin⟩

/-- A block is opened. -/
theorem Sound.allocateBlock (h : Sound L m w [])
    (hfull : w.pool.currentSlot ≥ w.pool.lastSlot) (hb : Fresh L w.blocks b) :
    Sound L m { w with pool := w.pool.allocateBlock L b, blocks := b :: w.blocks } [] := by
  have hptr := L.pointer_le
  have htwo := L.two_slots
  have hword : w.pool.currentBlock < 256 ^ L.pointer := by
    cases hblocks : w.blocks with
    | nil =>
        rw [h.chain.eq_zero_iff.mpr hblocks]
        have := hb.fits
        omega
    | cons c blocks =>
        have hchain := h.chain
        rw [hblocks] at hchain
        have := h.carved.fits c (by rw [hblocks]; exact List.mem_cons_self)
        rw [hchain.1]
        omega
  have hapart : ∀ c ∈ w.blocks, Apart L.pointer L.pointer b c := by
    intro c hc
    rcases hb.apart c hc with hlt | hgt
    · exact Or.inl (by omega)
    · exact Or.inr (by omega)
  refine ⟨h.chain.push hb.ne_null hword hapart, h.free_chain, h.carved.allocateBlock hfull hb,
    fun a v hv => ?_, fun a ha => ?_⟩
  · -- the elements are in other blocks
    obtain ⟨heq, q, hq, hle, hlt⟩ := h.known a v hv
    obtain ⟨c, hc, hslot, -⟩ := h.mem_block (List.mem_append_left [] hq)
    have hlow := hslot.2.1
    have hhigh := hslot.2.2
    refine ⟨(storeWord_of_outside ?_).trans heq, q, hq, hle, hlt⟩
    rcases hb.apart c hc with hlt' | hgt'
    · exact Or.inr (by omega)
    · exact Or.inl (by omega)
  · rw [← h.outside a fun c hc => ha c (List.mem_cons_of_mem b hc)]
    exact storeWord_of_outside (by have := ha b List.mem_cons_self; omega)

/-- What `allocate` returns is held from then on. -/
theorem Sound.allocate (h : Sound L m w free) {new : Option Nat}
    (hnew : w.TakesBlock → ∀ b ∈ new, Fresh L w.blocks b)
    (hcount : Counted L w (w.live.length + free.length)) {s : MemoryPool}
    (hs : w.pool.allocate L new = some (s, p)) {w' : Pooled}
    (hw' : w' = ⟨s, if w.TakesBlock then new.toList ++ w.blocks else w.blocks, p :: w.live,
      w.known⟩) :
    ∃ free', Sound L m w' free' ∧ Counted L w' (w.live.length + 1 + free'.length) ∧
      w.live.length + 1 + free'.length =
        max (w.live.length + free.length) (w.live.length + 1) := by
  subst hw'
  cases free with
  | cons q free =>
      obtain ⟨hq, hne, -⟩ := h.free_chain
      have hno : ¬ w.TakesBlock := fun ht => hne (hq.symm.trans ht.1)
      unfold MemoryPool.allocate at hs
      rw [hq, if_pos hne] at hs
      obtain ⟨rfl, rfl⟩ := Prod.mk.inj (Option.some.inj hs)
      have hlen : w.live.length + 1 + free.length = w.live.length + (q :: free).length := by
        rw [List.length_cons]
        omega
      rw [if_neg hno]
      refine ⟨free, h.reuse, ?_, hlen.trans (Nat.max_eq_left ?_).symm⟩
      · rw [hlen]
        exact hcount
      · exact Nat.add_le_add_left (Nat.succ_pos free.length) _
  | nil =>
      have hnull : w.pool.freeSlots = 0 := h.free_chain
      have hmax : w.live.length + 1 + ([] : List Nat).length =
          max (w.live.length + ([] : List Nat).length) (w.live.length + 1) :=
        (Nat.max_eq_right (Nat.le_succ _)).symm
      unfold MemoryPool.allocate at hs
      rw [if_neg (not_not_intro hnull)] at hs
      by_cases hfull : w.pool.currentSlot ≥ w.pool.lastSlot
      · rw [if_pos hfull] at hs
        rw [if_pos ⟨hnull, hfull⟩]
        cases new with
        | none => exact absurd hs (by simp)
        | some b =>
            have hb := hnew ⟨hnull, hfull⟩ b rfl
            have hopen := h.allocateBlock hfull hb
            obtain ⟨rfl, rfl⟩ := Prod.mk.inj (Option.some.inj hs)
            have hroom : (w.pool.allocateBlock L b).currentSlot <
                (w.pool.allocateBlock L b).lastSlot := by
              have hword : b + L.pointer < 256 ^ L.pointer := by
                have := hb.fits
                have := L.pointer_le
                have := L.two_slots
                omega
              have hstart := (Layout.start_bounds hb.aligned hword).2
              have htwo := L.two_slots
              show L.start b < b + L.blockSize - L.size + 1
              omega
            obtain ⟨hsound, hfew⟩ := hopen.take hroom
            exact ⟨[], hsound, Or.inr hfew, hmax⟩
      · rw [if_neg hfull] at hs
        rw [if_neg fun ht => hfull ht.2]
        obtain ⟨rfl, rfl⟩ := Prod.mk.inj (Option.some.inj hs)
        obtain ⟨hsound, hfew⟩ := h.take (Nat.lt_of_not_le hfull)
        exact ⟨[], hsound, Or.inr hfew, hmax⟩

/-- One step, with the number of slots that there are then. -/
theorem Sound.step (h : Sound L m w free) {a : PoolAct} (ha : Admissible L w a)
    (hcount : Counted L w (w.live.length + free.length)) :
    ∃ free', Sound L m (w.step L a) free' ∧
      Counted L (w.step L a) ((w.step L a).live.length + free'.length) ∧
      (w.step L a).live.length + free'.length =
        max (w.live.length + free.length) (w.step L a).live.length := by
  cases a with
  | write p i bytes =>
      refine ⟨free, h.write ha.1 ha.2, hcount, ?_⟩
      exact (Nat.max_eq_left (Nat.le_add_right _ _)).symm
  | deleteElement p =>
      by_cases hp : p ∈ w.live
      · have hlen : (w.live.erase p).length + (p :: free).length = w.live.length + free.length := by
          have hpos := List.length_pos_of_mem hp
          rw [List.length_erase_of_mem hp, List.length_cons]
          omega
        refine ⟨p :: free, h.delete hp, ?_, ?_⟩
        · show Counted L w ((w.live.erase p).length + (p :: free).length)
          rwa [hlen]
        · show (w.live.erase p).length + (p :: free).length = _
          rw [hlen]
          refine (Nat.max_eq_left (Nat.le_trans ?_ (Nat.le_add_right _ _))).symm
          exact List.length_erase_le
      · -- a null pointer
        have hnull := ha.resolve_right hp
        subst hnull
        have hsame : w.step L (.deleteElement 0) = w := by
          show Pooled.mk _ _ (w.live.erase 0) _ = w
          rw [List.erase_of_not_mem hp]
          rfl
        rw [hsame]
        exact ⟨free, h, hcount, (Nat.max_eq_left (Nat.le_add_right _ _)).symm⟩
  | newElement new value =>
      cases hs : w.pool.allocate L new with
      | none =>
          have hnone : w.pool.newElement L new value = none := by
            unfold MemoryPool.newElement
            rw [hs]
            rfl
          have hsame : w.step L (.newElement new value) = w := by
            simp only [Pooled.step, hnone]
          rw [hsame]
          exact ⟨free, h, hcount, (Nat.max_eq_left (Nat.le_add_right _ _)).symm⟩
      | some r =>
          obtain ⟨s, p⟩ := r
          obtain ⟨free', hsound, hfew, hmax⟩ := h.allocate ha.2 hcount hs rfl
          have hsome : w.pool.newElement L new value =
              some ({ s with mem := store s.mem p value }, p) := by
            unfold MemoryPool.newElement
            rw [hs]
            rfl
          have hstep : w.step L (.newElement new value) = Pooled.step L ⟨s, if w.TakesBlock then
              new.toList ++ w.blocks else w.blocks, p :: w.live, w.known⟩ (.write p 0 value) := by
            simp only [Pooled.step, hsome, Nat.add_zero]
          rw [hstep]
          exact ⟨free', hsound.write List.mem_cons_self (by rw [Nat.zero_add]; exact ha.1), hfew,
            hmax⟩

theorem live_le_peak (L : Layout) (w : Pooled) (as : List PoolAct) :
    w.live.length ≤ peak L w as := by
  cases as with
  | nil => exact Nat.le_refl _
  | cons a as => exact Nat.le_max_left _ _

/-- Any number of steps. -/
theorem Sound.run {as : List PoolAct} (h : Sound L m w free)
    (hcount : Counted L w (w.live.length + free.length))
    (has : AllSteps (Pooled.step L) (Admissible L) w as) :
    ∃ free', Sound L m (as.foldl (Pooled.step L) w) free' ∧
      Counted L (as.foldl (Pooled.step L) w)
        ((as.foldl (Pooled.step L) w).live.length + free'.length) ∧
      (as.foldl (Pooled.step L) w).live.length + free'.length =
        max (w.live.length + free.length) (peak L w as) := by
  induction as generalizing w free with
  | nil => exact ⟨free, h, hcount, (Nat.max_eq_left (Nat.le_add_right _ _)).symm⟩
  | cons a as ih =>
      obtain ⟨free₁, h₁, hcount₁, hmax₁⟩ := h.step has.1 hcount
      obtain ⟨free₂, h₂, hcount₂, hmax₂⟩ := ih h₁ hcount₁ has.2
      refine ⟨free₂, h₂, hcount₂, hmax₂.trans ?_⟩
      have hle := live_le_peak L (w.step L a) as
      show max _ _ = max _ (max _ (peak L (w.step L a) as))
      omega

/-- What the user of a pool relies on, and that the pool keeps to its blocks. -/
structure Safe (L : Layout) (m : Mem) (w : Pooled) : Prop where
  live_apart : w.live.Pairwise (Apart L.size L.size)
  live_inside : ∀ p ∈ w.live, p ≠ 0 ∧ ∃ b ∈ w.blocks, L.IsSlot b p
  kept : ∀ a v, w.known a = some v → w.pool.mem a = v
  blocks_apart : w.blocks.Pairwise (Apart L.blockSize L.blockSize)
  outside : ∀ a, (∀ b ∈ w.blocks, a < b ∨ b + L.blockSize ≤ a) → w.pool.mem a = m a
  destroyed : ∀ fuel, w.blocks.length ≤ fuel → w.pool.destroy L fuel = some w.blocks

theorem Sound.safe (h : Sound L m w free) : Safe L m w where
  live_apart := (List.pairwise_append.mp h.carved.slots_apart).1
  live_inside p hp := by
    obtain ⟨b, hb, hslot, hne, -⟩ := h.mem_block (List.mem_append_left free hp)
    exact ⟨hne, b, hb, hslot⟩
  kept a v hv := (h.known a v hv).1
  blocks_apart := h.carved.blocks_apart
  outside := h.outside
  destroyed _ hf := h.chain.walk_eq hf

/-- Elements of two words, of which a block has three. -/
def twoWords : Layout where
  pointer := 8
  size := 16
  align := 8
  blockSize := 64
  pointer_pos := by decide
  pointer_le := by decide
  align_dvd_size := by decide
  pointer_dvd_align := by decide
  align_dvd_word := by decide
  two_slots := by decide

/-- Two elements, one of which is deleted and made anew. -/
def twoElements : List PoolAct :=
  [.newElement (some 64) [1, 2, 3], .newElement none [7], .write 72 8 [4],
    .deleteElement 72, .newElement none [9]]

theorem twoElements_admissible :
    AllSteps (Pooled.step twoWords) (Admissible twoWords) (init fun _ => 0) twoElements := by
  have hfresh : Fresh twoWords [] 64 := ⟨by decide, by decide, by decide, by simp⟩
  refine ⟨⟨by decide, fun _ b hb => ?_⟩,
    ⟨by decide, fun _ _ hb => absurd hb (Option.not_mem_none _)⟩,
    ⟨by decide, by decide⟩, Or.inr (by decide),
    ⟨by decide, fun _ _ hb => absurd hb (Option.not_mem_none _)⟩, trivial⟩
  rwa [← Option.mem_some_iff.mp hb]

/--
At every moment the elements are apart from each other, each in a slot of its own, and are
what the user has made them; and the destructor would delete each block once.
-/
theorem pool_safe (L : Layout) (m : Mem) {as : List PoolAct}
    (has : AllSteps (Pooled.step L) (Admissible L) (init m) as) :
    AllStates (Pooled.step L) (Safe L m) (init m) as := by
  refine allStates_iff.mpr fun pre post heq => ?_
  rw [heq] at has
  obtain ⟨free, hsound, -⟩ :=
    (sound_init L m).run (Or.inl rfl) (allSteps_append.mp has).1
  exact hsound.safe

theorem pool_safe_two :
    AllStates (Pooled.step twoWords) (Safe twoWords fun _ => 0) (init fun _ => 0) twoElements :=
  pool_safe twoWords (fun _ => 0) twoElements_admissible

/--
There are as many slots, in use or free, as elements were ever held at one time, and
there is no way to have as many of them in the blocks before the last.
-/
theorem pool_bounded (L : Layout) (m : Mem) {as : List PoolAct}
    (has : AllSteps (Pooled.step L) (Admissible L) (init m) as) :
    (∃ free, Chain L.pointer (as.foldl (Pooled.step L) (init m)).pool.mem
        (as.foldl (Pooled.step L) (init m)).pool.freeSlots free ∧
      (as.foldl (Pooled.step L) (init m)).live.length + free.length = peak L (init m) as) ∧
    ((as.foldl (Pooled.step L) (init m)).blocks = [] ∨
      ∀ slots : List Nat, slots.Pairwise (Apart L.size L.size) →
        (∀ p ∈ slots, ∃ b ∈ (as.foldl (Pooled.step L) (init m)).blocks.tail, L.IsSlot b p) →
          slots.length < peak L (init m) as) := by
  obtain ⟨free, hsound, hcount, hmax⟩ := (sound_init L m).run (Or.inl rfl) has
  have hpeak : (as.foldl (Pooled.step L) (init m)).live.length + free.length =
      peak L (init m) as := hmax.trans (Nat.max_eq_right (Nat.zero_le _))
  rw [hpeak] at hcount
  refine ⟨⟨free, hsound.free_chain, hpeak⟩, hcount.imp_right fun hfew slots hapart hslots => ?_⟩
  refine Nat.lt_of_le_of_lt (Layout.length_le_sum_slotsOf (fun b hb => ?_) hslots hapart) hfew
  have hfits := hsound.carved.fits b (List.mem_of_mem_tail hb)
  have hptr := L.pointer_le
  have htwo := L.two_slots
  omega

theorem pool_bounded_two :
    (∃ free, Chain twoWords.pointer
        (twoElements.foldl (Pooled.step twoWords) (init fun _ => 0)).pool.mem
        (twoElements.foldl (Pooled.step twoWords) (init fun _ => 0)).pool.freeSlots free ∧
      (twoElements.foldl (Pooled.step twoWords) (init fun _ => 0)).live.length + free.length =
        peak twoWords (init fun _ => 0) twoElements) ∧
    ((twoElements.foldl (Pooled.step twoWords) (init fun _ => 0)).blocks = [] ∨
      ∀ slots : List Nat, slots.Pairwise (Apart twoWords.size twoWords.size) →
        (∀ p ∈ slots, ∃ b ∈
          (twoElements.foldl (Pooled.step twoWords) (init fun _ => 0)).blocks.tail,
            twoWords.IsSlot b p) →
          slots.length < peak twoWords (init fun _ => 0) twoElements) :=
  pool_bounded twoWords (fun _ => 0) twoElements_admissible

end Steps

end Pooled

end NanomsgDemo.Net

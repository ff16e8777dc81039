import Mathlib.Algebra.GroupWithZero.Nat
import Mathlib.Data.List.Basic

/-!
# A memory and the lists that lie in it

A memory is a byte for every address. Bytes are stored and loaded, and so are addresses,
as words of a width. What is stored elsewhere does not change what is loaded.

A `Chain` is a singly linked list: at the address of each node is the address of the next
one. It is the same list as long as nothing is stored over one of its links.
-/

namespace Memory

/-- The bytes at all addresses. -/
abbrev Mem := Nat → UInt8

def store (m : Mem) (a : Nat) (bytes : List UInt8) : Mem :=
  fun i => if a ≤ i then (bytes[i - a]?).getD (m i) else m i

def load (m : Mem) (a n : Nat) : List UInt8 := (List.range n).map fun i => m (a + i)

/-- `n` bytes at `a` and `k` bytes at `b` have no byte in common. -/
def Apart (n k a b : Nat) : Prop := a + n ≤ b ∨ b + k ≤ a

instance (n k a b : Nat) : Decidable (Apart n k a b) := inferInstanceAs (Decidable (_ ∨ _))

variable {m : Mem} {w a b n k : Nat} {bytes : List UInt8}

theorem Apart.symm (h : Apart n k a b) : Apart k n b a := Or.symm h

instance : Std.Symm (Apart n n) := ⟨fun _ _ h => h.symm⟩

theorem store_of_outside {i : Nat} (h : i < a ∨ a + bytes.length ≤ i) :
    store m a bytes i = m i := by
  unfold store
  split
  · rw [List.getElem?_eq_none (by omega)]
    rfl
  · rfl

theorem store_inside {i : Nat} (h : i < bytes.length) :
    store m a bytes (a + i) = bytes[i] := by
  unfold store
  rw [if_pos (Nat.le_add_right a i), Nat.add_sub_cancel_left, List.getElem?_eq_getElem h]
  rfl

theorem load_congr {m' : Mem} (h : ∀ i < n, m' (a + i) = m (a + i)) :
    load m' a n = load m a n :=
  List.map_congr_left fun i hi => h i (List.mem_range.mp hi)

theorem load_store_of_apart (h : Apart bytes.length n a b) :
    load (store m a bytes) b n = load m b n := by
  refine load_congr fun i hi => store_of_outside ?_
  unfold Apart at h
  omega

theorem load_store_self : load (store m a bytes) a bytes.length = bytes := by
  refine List.ext_getElem (by simp [load]) fun i hi hi' => ?_
  simp only [load, List.getElem_map, List.getElem_range, store_inside hi']

/-! ## Words -/

/-- A number in `w` bytes, the lowest first. -/
def wordBytes : (w : Nat) → Nat → List UInt8
  | 0, _ => []
  | w + 1, x => UInt8.ofNat x :: wordBytes w (x / 256)

def wordOf (l : List UInt8) : Nat := l.foldr (fun b x => b.toNat + 256 * x) 0

def storeWord (w : Nat) (m : Mem) (a x : Nat) : Mem := store m a (wordBytes w x)

def loadWord (w : Nat) (m : Mem) (a : Nat) : Nat := wordOf (load m a w)

@[simp] theorem length_wordBytes (w x : Nat) : (wordBytes w x).length = w := by
  induction w generalizing x with
  | zero => rfl
  | succ w ih => exact congrArg Nat.succ (ih (x / 256))

theorem wordOf_wordBytes {x : Nat} (h : x < 256 ^ w) : wordOf (wordBytes w x) = x := by
  induction w generalizing x with
  | zero =>
      rw [Nat.pow_zero] at h
      exact (Nat.lt_one_iff.mp h).symm
  | succ w ih =>
      have hrest : x / 256 < 256 ^ w := by
        rw [Nat.div_lt_iff_lt_mul (by decide), ← Nat.pow_succ]
        exact h
      show (UInt8.ofNat x).toNat + 256 * wordOf (wordBytes w (x / 256)) = x
      rw [ih hrest, UInt8.toNat_ofNat']
      exact Nat.mod_add_div x 256

theorem loadWord_storeWord_self {x : Nat} (h : x < 256 ^ w) :
    loadWord w (storeWord w m a x) a = x := by
  have hload : load (storeWord w m a x) a w = wordBytes w x := by
    have hself : load (store m a (wordBytes w x)) a (wordBytes w x).length = wordBytes w x :=
      load_store_self
    rwa [length_wordBytes] at hself
  unfold loadWord
  rw [hload, wordOf_wordBytes h]

theorem loadWord_store_of_apart (h : Apart bytes.length w a b) :
    loadWord w (store m a bytes) b = loadWord w m b := by
  unfold loadWord
  rw [load_store_of_apart h]

theorem storeWord_of_outside {x i : Nat} (h : i < a ∨ a + w ≤ i) : storeWord w m a x i = m i :=
  store_of_outside (by rwa [length_wordBytes])

/-! ## Chains -/

/-- From `p` on there are the nodes `l`, and no more. -/
def Chain (w : Nat) (m : Mem) : Nat → List Nat → Prop
  | p, [] => p = 0
  | p, x :: l => p = x ∧ x ≠ 0 ∧ Chain w m (loadWord w m x) l

/-- The nodes that are met from `p` on, if the last is met after no more than `fuel` of them. -/
def walk (w : Nat) (m : Mem) : (fuel : Nat) → Nat → Option (List Nat)
  | 0, p => if p = 0 then some [] else none
  | fuel + 1, p => if p = 0 then some [] else (walk w m fuel (loadWord w m p)).map (p :: ·)

variable {p : Nat} {l : List Nat}

theorem Chain.eq_zero_iff (h : Chain w m p l) : p = 0 ↔ l = [] := by
  cases l with
  | nil => exact ⟨fun _ => rfl, fun _ => h⟩
  | cons x l =>
      refine ⟨fun hp => absurd (h.1.symm.trans hp) h.2.1,
        fun hl => absurd hl (List.cons_ne_nil x l)⟩

theorem Chain.store (h : Chain w m p l) (hl : ∀ x ∈ l, Apart bytes.length w a x) :
    Chain w (Memory.store m a bytes) p l := by
  induction l generalizing p with
  | nil => exact h
  | cons x l ih =>
      refine ⟨h.1, h.2.1, ?_⟩
      rw [loadWord_store_of_apart (hl x List.mem_cons_self)]
      exact ih h.2.2 fun y hy => hl y (List.mem_cons_of_mem x hy)

theorem Chain.storeWord {x : Nat} (h : Chain w m p l) (hl : ∀ y ∈ l, Apart w w a y) :
    Chain w (Memory.storeWord w m a x) p l :=
  h.store (by rwa [length_wordBytes])

/-- A node is put in front of the others. -/
theorem Chain.push (h : Chain w m p l) (ha : a ≠ 0) (hp : p < 256 ^ w)
    (hl : ∀ y ∈ l, Apart w w a y) : Chain w (Memory.storeWord w m a p) a (a :: l) := by
  refine ⟨rfl, ha, ?_⟩
  rw [loadWord_storeWord_self hp]
  exact h.storeWord hl

theorem Chain.walk_eq (h : Chain w m p l) {fuel : Nat} (hf : l.length ≤ fuel) :
    walk w m fuel p = some l := by
  induction l generalizing p fuel with
  | nil =>
      cases fuel with
      | zero => exact if_pos h
      | succ fuel => exact if_pos h
  | cons x l ih =>
      obtain ⟨rfl, hx, hrest⟩ := h
      obtain ⟨fuel, rfl⟩ := Nat.exists_eq_succ_of_ne_zero (Nat.ne_of_gt (Nat.lt_of_lt_of_le
        (Nat.succ_pos l.length) hf))
      unfold walk
      rw [if_neg hx, ih hrest (Nat.le_of_succ_le_succ hf)]
      rfl

end Memory

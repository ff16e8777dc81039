import Mathlib.Data.List.Forall2
import NanomsgDemo.Lib.Buffers
import NanomsgDemo.Net.CacheQueue

/-!
# Bytes that are passed on

What the classes of `libutils` take and what they call their callbacks with: a pointer
and a length. The buffers in between are allocated for a size that is computed first,
and written from the front.
-/

namespace NanomsgDemo.Utils

open Net Buffers

/-- A pointer to bytes and an `unsigned int` that counts them. -/
structure Bytes where
  bytes : List Byte
  length_lt : bytes.length < 2 ^ 32

theorem Bytes.toNat_length (data : Bytes) :
    (UInt32.ofNat data.bytes.length).toNat = data.bytes.length :=
  UInt32.toNat_ofNat_of_lt' data.length_lt

/-- `Data::Null`. -/
def Bytes.null : Bytes := ⟨[], by decide⟩

/-- What a callback is called with: a pointer, `none` for null, and a length. -/
structure Passed where
  out : Option Buffer
  len : Nat
  deriving DecidableEq

/-- What writing to a new buffer leaves there, `none` if it does not fit. -/
def fill (size : Nat) (bytes : List Byte) : Option Buffer :=
  storeAll (newBuffer size) 0 (bytes.map some)

theorem fill_of_le {size : Nat} {bytes : List Byte} (h : bytes.length ≤ size) :
    fill size bytes = some (bytes.map some ++ newBuffer (size - bytes.length)) := by
  have hnew : newBuffer size = [] ++ newBuffer bytes.length ++ newBuffer (size - bytes.length) := by
    unfold newBuffer
    rw [List.nil_append, List.replicate_append_replicate]
    congr 1
    omega
  unfold fill
  rw [hnew]
  exact storeAll_append (by simp)

theorem mapM_id_eq_some {cells : Buffer} {bytes : List Byte} (h : cells.mapM id = some bytes) :
    cells = bytes.map some := by
  induction cells generalizing bytes with
  | nil =>
      cases h
      rfl
  | cons c cells ih =>
      rw [List.mapM_cons] at h
      obtain ⟨b, hb, h⟩ := Option.bind_eq_some_iff.mp h
      obtain ⟨rest, hrest, h⟩ := Option.bind_eq_some_iff.mp h
      cases h
      rw [List.map_cons, ← ih hrest]
      exact congrArg (· :: cells) hb

/-- What can be read from the front of a buffer has been written there. -/
theorem read_eq_some_iff {buf : Buffer} {n : Nat} {bytes : List Byte} :
    buf.read 0 n = some bytes ↔ n ≤ buf.length ∧ buf.take n = bytes.map some := by
  unfold Buffer.read
  rw [Nat.zero_add, List.drop_zero]
  split
  · rename_i hle
    rw [and_iff_right hle]
    constructor
    · exact mapM_id_eq_some
    · intro h
      rw [h, mapM_id_map_some]
  · rename_i hle
    exact iff_of_false (fun h => Option.some_ne_none _ h.symm) (fun h => hle h.1)

/-- A reader of the cells sees what was written, and anything where nothing was. -/
def Seen (cells : Buffer) (bytes : List Byte) : Prop :=
  List.Forall₂ (fun c b => ∀ x, c = some x → b = x) cells bytes

theorem seen_append {bytes seen : List Byte} {cells : Buffer} :
    Seen (bytes.map some ++ cells) seen ↔ ∃ rest, seen = bytes ++ rest ∧ Seen cells rest := by
  induction bytes generalizing seen with
  | nil =>
      constructor
      · intro h
        exact ⟨seen, rfl, h⟩
      · intro h
        obtain ⟨rest, rfl, hrest⟩ := h
        exact hrest
  | cons b bytes ih =>
      constructor
      · intro h
        cases h with
        | cons hb hrest =>
            obtain ⟨rest, rfl, hseen⟩ := ih.mp hrest
            rw [hb b rfl]
            exact ⟨rest, rfl, hseen⟩
      · intro h
        obtain ⟨rest, rfl, hseen⟩ := h
        refine List.Forall₂.cons ?_ (ih.mpr ⟨rest, rfl, hseen⟩)
        intro x hx
        exact Option.some_inj.mp hx

/-- What is in the cells, where `unwritten` is what nobody has written. -/
def contents (unwritten : Nat → Byte) (cells : Buffer) : List Byte :=
  cells.mapIdx fun i c => c.getD (unwritten i)

theorem seen_contents (unwritten : Nat → Byte) (cells : Buffer) :
    Seen cells (contents unwritten cells) := by
  unfold contents
  induction cells generalizing unwritten with
  | nil => exact List.Forall₂.nil
  | cons c cells ih =>
      rw [List.mapIdx_cons]
      refine List.Forall₂.cons ?_ (ih fun i => unwritten (i + 1))
      intro x hx
      rw [hx]
      rfl

theorem contents_map_some (unwritten : Nat → Byte) (bytes : List Byte) :
    contents unwritten (bytes.map some) = bytes := by
  have hseen := seen_contents unwritten (bytes.map some ++ [])
  obtain ⟨rest, hrest, hnil⟩ := seen_append.mp hseen
  cases hnil
  rwa [List.append_nil, List.append_nil] at hrest

/-- The callback gets these bytes. -/
def Passed.Holds (p : Passed) (bytes : List Byte) : Prop :=
  p.len = bytes.length ∧ ∃ out, p.out = some out ∧ out.read 0 p.len = some bytes

theorem Passed.Holds.unique {p : Passed} {a b : List Byte} (ha : p.Holds a) (hb : p.Holds b) :
    a = b := by
  obtain ⟨-, out, hout, hread⟩ := ha
  obtain ⟨-, out', hout', hread'⟩ := hb
  rw [hout] at hout'
  cases hout'
  rw [hread] at hread'
  exact Option.some_inj.mp hread'

end NanomsgDemo.Utils

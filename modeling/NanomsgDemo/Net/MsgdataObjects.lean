import NanomsgDemo.Lib.Buffers
import NanomsgDemo.Lib.Ledger
import NanomsgDemo.Lib.Recycling
import NanomsgDemo.Net.MessageQueue

/-!
# Msgdata objects and their buffers

`Msgdata` of `libnet/message_queue.cpp`, whose value is a type and some bytes. Here it
is an object with a pointer to a buffer, and its special members allocate, copy and
free. A run is what the program does with any number of objects: it constructs them,
assigns them and destroys them.

Two members break the value. The constructor from a null text puts its new buffer into
the parameter instead of the member, so the buffer is lost and the member not set. And
a move leaves the source its length without its buffer. Runs without these two uses
are those in which every object keeps a buffer of its own (`values_iff`).
-/

namespace NanomsgDemo.Net

open Accounts Buffers Runs

namespace MsgdataObjects

/-- An `unsigned char*` to the beginning of a buffer, null, or never set. -/
inductive Ptr where
  | null
  | uninit
  | at (b : Nat)
  deriving DecidableEq, Repr

/-- The members that are read. -/
structure Fields where
  mtype : Int
  mtext : Ptr
  mtextL : Nat
  deriving DecidableEq, Repr

/-- The objects, and the buffers that have been allocated and not freed. -/
structure Store where
  objs : AList fun _ : Nat => Fields
  /-- A byte of a buffer is `none` until it is written. -/
  heap : AList fun _ : Nat => List (Option Byte)
  book : Ledger Nat

namespace Store

def init : Store := ⟨∅, ∅, Ledger.empty⟩

/-- `new unsigned char[n]`. -/
def alloc (s : Store) (n : Nat) : Store × Nat :=
  let b := s.book.made.length
  ({ s with
      heap := s.heap.insert b (List.replicate n none)
      book := s.book.record [b] [] }, b)

/-- What is written to a buffer from its beginning on. -/
def fill (s : Store) (b : Nat) (bytes : List (Option Byte)) : Option Store :=
  (s.heap.lookup b).bind fun buf =>
    (storeAll buf 0 bytes).map fun buf' => { s with heap := s.heap.insert b buf' }

/-- The `n` bytes that `memcpy` reads at `p`. -/
def bytes (s : Store) (p : Ptr) (n : Nat) : Option (List (Option Byte)) :=
  match p with
  | .uninit => none
  | .null => if n = 0 then some [] else none
  | .at b => (s.heap.lookup b).bind fun buf =>
      if n ≤ buf.length then some (buf.take n) else none

/-- `if (mtext != NULL) { delete[] mtext; mtext = NULL; }` -/
def delete (s : Store) (p : Ptr) : Option Store :=
  match p with
  | .uninit => none
  | .null => some s
  | .at b =>
      if b ∈ s.heap then
        some { s with heap := s.heap.erase b, book := s.book.record [] [b] }
      else none

/-- An object is constructed at `x`, or its members are set. -/
def set (s : Store) (x : Nat) (o : Fields) : Store := { s with objs := s.objs.insert x o }

/-! ## The special members -/

/-- `Msgdata()`. -/
def default (s : Store) (x : Nat) : Option Store := do
  let (s, b) := s.alloc 1
  let s ← s.fill b [some 0]
  return s.set x ⟨0, .at b, 0⟩

/--
`Msgdata(int, unsigned char*, unsigned long)` of the `mtext_l` bytes at `mtext`, `none`
for a null `mtext`.
-/
def text (s : Store) (x : Nat) (mtype : Int) (mtext : Option (List Byte)) : Option Store :=
  match mtext with
  | none => do
      -- `mtext = new unsigned char[1];` sets the parameter
      let (s, b) := s.alloc 1
      let s ← s.fill b [some 0]
      return s.set x ⟨mtype, .uninit, 0⟩
  | some bytes => do
      let (s, b) := s.alloc bytes.length
      let s ← s.fill b (bytes.map some)
      return s.set x ⟨mtype, .at b, bytes.length⟩

/-- `Msgdata(const Msgdata&)`. -/
def copy (s : Store) (x : Nat) (other : Fields) : Option Store := do
  let (s, b) := s.alloc other.mtextL
  let bytes ← s.bytes other.mtext other.mtextL
  let s ← s.fill b bytes
  return s.set x ⟨other.mtype, .at b, other.mtextL⟩

/-- `Msgdata(Msgdata&&)` of the object at `y`. -/
def move (s : Store) (x y : Nat) (other : Fields) : Option Store :=
  if other.mtext = .uninit then none
  else some ((s.set x other).set y { other with mtext := .null })

/-- `~Msgdata()`, after which the object is gone. -/
def destroy (s : Store) (x : Nat) (self : Fields) : Option Store :=
  (s.delete self.mtext).map fun s => { s with objs := s.objs.erase x }

/-- `operator=(const Msgdata&)` of another object. -/
def assignCopy (s : Store) (x : Nat) (self other : Fields) : Option Store := do
  let s ← s.delete self.mtext
  let (s, b) := s.alloc other.mtextL
  let bytes ← s.bytes other.mtext other.mtextL
  let s ← s.fill b bytes
  return s.set x ⟨other.mtype, .at b, other.mtextL⟩

/-- `operator=(Msgdata&&)` of another object. -/
def assignMove (s : Store) (x y : Nat) (self other : Fields) : Option Store := do
  let s ← s.delete self.mtext
  if other.mtext = .uninit then none
  else some ((s.set x other).set y { other with mtext := .null })

end Store

/-- What a program does with its objects. -/
inductive Act where
  | default (x : Nat)
  | text (x : Nat) (mtype : Int) (mtext : Option (List Byte))
  | copy (x y : Nat)
  | move (x y : Nat)
  | assignCopy (x y : Nat)
  | assignMove (x y : Nat)
  | destroy (x : Nat)
  deriving DecidableEq, Repr

/--
One of these. An object is constructed where there is none, and the others are there;
what does not go with that is not done.
-/
def Store.exec (s : Store) : Act → Option Store
  | .default x => if x ∈ s.objs then some s else s.default x
  | .text x mtype mtext => if x ∈ s.objs then some s else s.text x mtype mtext
  | .copy x y =>
      match s.objs.lookup x, s.objs.lookup y with
      | none, some other => s.copy x other
      | _, _ => some s
  | .move x y =>
      match s.objs.lookup x, s.objs.lookup y with
      | none, some other => s.move x y other
      | _, _ => some s
  | .assignCopy x y =>
      match s.objs.lookup x, s.objs.lookup y with
      | some self, some other => if x = y then some s else s.assignCopy x self other
      | _, _ => some s
  | .assignMove x y =>
      match s.objs.lookup x, s.objs.lookup y with
      | some self, some other => if x = y then some s else s.assignMove x y self other
      | _, _ => some s
  | .destroy x =>
      match s.objs.lookup x with
      | some self => s.destroy x self
      | none => some s

/-- A step of a program, `none` from where its behaviour is undefined on. -/
def step (s : Option Store) (a : Act) : Option Store := s.bind fun s => s.exec a

/-! ## What an object stands for -/

/-- The value of the object at `x`, if it has one. -/
def Store.value (s : Store) (x : Nat) : Option Msgdata :=
  (s.objs.lookup x).bind fun o =>
    (s.bytes o.mtext o.mtextL).bind fun bytes =>
      (bytes.mapM id).map fun text => ⟨o.mtype, text⟩

/-- What the acts are to do to the values: a copy is equal to its source, and a move copies. -/
def act (v : Nat → Option Msgdata) : Act → Nat → Option Msgdata
  | .default x => if (v x).isSome then v else Function.update v x (some NULL_MSG)
  | .text x mtype mtext =>
      if (v x).isSome then v else Function.update v x (some ⟨mtype, mtext.getD []⟩)
  | .copy x y | .move x y =>
      if (v x).isNone ∧ (v y).isSome then Function.update v x (v y) else v
  | .assignCopy x y | .assignMove x y =>
      if (v x).isSome ∧ (v y).isSome then Function.update v x (v y) else v
  | .destroy x => Function.update v x none

/-- The buffer of a pointer. -/
def Ptr.buffer : Ptr → Option Nat
  | .at b => some b
  | _ => none

/-- The buffers that the objects own. -/
def owned (objs : AList fun _ : Nat => Fields) : List Nat :=
  objs.entries.filterMap fun e => e.2.mtext.buffer

/--
Every object is sound: it has a buffer of its own with the bytes it needs, or needs
none, and every buffer that was made is either owned or has been freed once.
-/
structure Sound (s : Store) : Prop where
  text : ∀ x o, s.objs.lookup x = some o →
    o.mtextL = 0 ∨ ∃ b buf, o.mtext = .at b ∧ s.heap.lookup b = some buf ∧
      o.mtextL ≤ buf.length ∧ none ∉ buf.take o.mtextL
  apart : ∀ x y o o' b, s.objs.lookup x = some o → s.objs.lookup y = some o' →
    o.mtext = .at b → o'.mtext = .at b → x = y
  once : s.book.made.Nodup ∧ Reconciled s.book (owned s.objs)

/-- No construction from a null text, and no move from another object that has bytes. -/
def Store.Ok (s : Store) : Act → Prop
  | .text x _ none => x ∈ s.objs
  | .move x y => x ∉ s.objs → ∀ other ∈ s.objs.lookup y, other.mtextL = 0
  | .assignMove x y => x ∈ s.objs → x ≠ y → ∀ other ∈ s.objs.lookup y, other.mtextL = 0
  | _ => True

/-! ## Owned buffers -/

section Owned

variable {objs : AList fun _ : Nat => Fields} {x y b : Nat} {o o' : Fields}

theorem owned_insert :
    owned (objs.insert x o) = o.mtext.buffer.toList ++ owned (objs.erase x) := by
  show (Sigma.mk x o :: List.kerase x objs.entries).filterMap _ = _ ++ _
  rw [List.filterMap_cons]
  cases o.mtext.buffer with
  | none => rfl
  | some b => rfl

theorem owned_erase_of_notMem (h : x ∉ objs) : owned (objs.erase x) = owned objs := by
  show (List.kerase x objs.entries).filterMap _ = _
  rw [List.kerase_of_notMem_keys h]
  rfl

/-- What an object owns, and what the others own. -/
theorem owned_perm (h : objs.lookup x = some o) :
    (owned objs).Perm (o.mtext.buffer.toList ++ owned (objs.erase x)) := by
  have hmem : x ∈ objs.keys := AList.lookup_isSome.mp (by rw [h]; rfl)
  obtain ⟨o', l₁, l₂, hl₁, hsplit, herase⟩ := List.exists_of_kerase hmem
  obtain rfl : o' = o := by
    have hin : Sigma.mk x o' ∈ objs.entries := by
      rw [hsplit]
      simp
    have hlookup := AList.mem_lookup_iff.mpr hin
    rw [h] at hlookup
    exact (Option.some.inj hlookup).symm
  have howned : owned objs = (l₁ ++ ⟨x, o'⟩ :: l₂).filterMap fun e => e.2.mtext.buffer := by
    rw [← hsplit]
    rfl
  have hrest : owned (objs.erase x) = (l₁ ++ l₂).filterMap fun e => e.2.mtext.buffer := by
    rw [← herase]
    rfl
  rw [howned, hrest, List.filterMap_append, List.filterMap_append, List.filterMap_cons]
  cases o'.mtext.buffer with
  | none => exact List.Perm.refl _
  | some b => exact List.perm_middle

theorem mem_owned_of_lookup (h : objs.lookup x = some o) (hb : o.mtext = .at b) :
    b ∈ owned objs := by
  refine (owned_perm h).mem_iff.mpr (List.mem_append_left _ ?_)
  rw [hb]
  exact List.mem_singleton.mpr rfl

/-- With no buffer owned twice, no two objects have the same. -/
theorem eq_of_owned (hn : (owned objs).Nodup) (hx : objs.lookup x = some o)
    (hy : objs.lookup y = some o') (hb : o.mtext = .at b) (hb' : o'.mtext = .at b) : x = y := by
  by_contra hne
  have hrest : (objs.erase x).lookup y = some o' := by
    rw [AList.lookup_erase_ne (Ne.symm hne)]
    exact hy
  have hsplit := (owned_perm hx).nodup_iff.mp hn
  rw [hb] at hsplit
  exact (List.nodup_append.mp hsplit).2.2 b (List.mem_singleton.mpr rfl) b
    (mem_owned_of_lookup hrest hb') rfl

theorem insert_erase : (objs.erase x).insert x o = objs.insert x o := by
  apply AList.ext
  show Sigma.mk x o :: List.kerase x (List.kerase x objs.entries) = _
  rw [List.kerase_of_notMem_keys (List.notMem_keys_kerase x objs.nodupKeys)]
  rfl

/-- A new object that takes the buffer of another one over. -/
theorem owned_hand_over (hx : objs.lookup x = none) (hy : objs.lookup y = some o) (hxy : y ≠ x)
    (hnone : o'.mtext.buffer = none) :
    (owned ((objs.insert x o).insert y o')).Perm (owned objs) := by
  have hyx : (objs.insert x o).lookup y = some o := by
    rw [AList.lookup_insert_ne hxy, hy]
  have hgive := owned_perm hyx
  rw [owned_insert, owned_erase_of_notMem (AList.lookup_eq_none.mp hx)] at hgive
  rw [owned_insert, hnone]
  exact (List.perm_append_left_iff _).mp hgive.symm

end Owned

/-! ## The invariant -/

/-- An object with the bytes `text`: its length is theirs, and its buffer begins with them. -/
def Holds (heap : AList fun _ : Nat => List (Option Byte)) (o : Fields) (text : List Byte) :
    Prop :=
  o.mtextL = text.length ∧
    (o.mtext = .null ∧ text = [] ∨
      ∃ b rest, o.mtext = .at b ∧ heap.lookup b = some (text.map some ++ rest))

theorem Holds.mtext_ne_uninit {heap : AList fun _ : Nat => List (Option Byte)} {o : Fields}
    {text : List Byte} (h : Holds heap o text) : o.mtext ≠ .uninit := by
  intro hun
  rcases h.2 with ⟨hnull, _⟩ | ⟨b, rest, hb, _⟩
  · rw [hun] at hnull
    cases hnull
  · rw [hun] at hb
    cases hb

/-- What well-behaved programs keep: buffers are numbered as they are made. -/
structure Inv (s : Store) : Prop where
  holds : ∀ x o, s.objs.lookup x = some o → ∃ text, Holds s.heap o text
  ids : s.book.made = List.range s.book.made.length
  account : Reconciled s.book (owned s.objs)

section Inv

variable {s : Store} {o other : Fields} {text : List Byte} {x y b : Nat}

theorem inv_init : Inv Store.init :=
  ⟨fun x o h => (by cases h), rfl, reconciled_empty⟩

theorem Inv.made_nodup (h : Inv s) : s.book.made.Nodup := by
  rw [h.ids]
  exact List.nodup_range

theorem Inv.made_perm (h : Inv s) : s.book.made.Perm (s.book.freed ++ owned s.objs) := by
  have haccount := h.account
  unfold Reconciled Missing at haccount
  rwa [List.append_nil] at haccount

theorem Inv.owned_nodup (h : Inv s) : (owned s.objs).Nodup :=
  (List.nodup_append.mp (h.made_perm.nodup_iff.mp h.made_nodup)).2.1

/-- The next buffer is nobody's. -/
theorem Inv.fresh (h : Inv s) (hx : s.objs.lookup x = some o) :
    o.mtext ≠ .at s.book.made.length := by
  intro hb
  have hmade := h.made_perm.mem_iff.mpr
    (List.mem_append_right _ (mem_owned_of_lookup hx hb))
  rw [h.ids, List.mem_range] at hmade
  simp at hmade

theorem Holds.insert {heap : AList fun _ : Nat => List (Option Byte)} {buf : List (Option Byte)}
    (h : Holds heap o text) (hb : o.mtext ≠ .at b) : Holds (heap.insert b buf) o text := by
  refine ⟨h.1, h.2.imp_right fun ⟨b', rest, hb', hlookup⟩ => ⟨b', rest, hb', ?_⟩⟩
  rw [AList.lookup_insert_ne]
  · exact hlookup
  · rintro rfl
    exact hb hb'

theorem Holds.erase {heap : AList fun _ : Nat => List (Option Byte)}
    (h : Holds heap o text) (hb : o.mtext ≠ .at b) : Holds (heap.erase b) o text := by
  refine ⟨h.1, h.2.imp_right fun ⟨b', rest, hb', hlookup⟩ => ⟨b', rest, hb', ?_⟩⟩
  rw [AList.lookup_erase_ne]
  · exact hlookup
  · rintro rfl
    exact hb hb'

/-- An object that holds some bytes can be copied from. -/
theorem Holds.bytes (h : Holds s.heap o text) :
    s.bytes o.mtext o.mtextL = some (text.map some) := by
  obtain ⟨hlen, ⟨hnull, hempty⟩ | ⟨b, rest, hb, hlookup⟩⟩ := h
  · rw [hlen, hnull, hempty]
    rfl
  · rw [hlen, hb]
    simp only [Store.bytes, hlookup, Option.bind_some]
    rw [if_pos (by simp), List.take_left' (by simp)]

theorem mapM_id_map_some (text : List Byte) : (text.map some).mapM id = some text := by
  induction text with
  | nil => rfl
  | cons c text ih => simp [List.mapM_cons, ih]

/-- These bytes are its value. -/
theorem Holds.value (h : Holds s.heap o text) (hx : s.objs.lookup x = some o) :
    s.value x = some ⟨o.mtype, text⟩ := by
  simp only [Store.value, hx, h.bytes, Option.bind_some, mapM_id_map_some, Option.map_some]

theorem value_of_none (hx : s.objs.lookup x = none) : s.value x = none := by
  rw [Store.value, hx]
  rfl

/-- An object that is as it was, with its bytes, has the value it had. -/
theorem Inv.value_frame (h : Inv s) {t : Store} (hlookup : t.objs.lookup x = s.objs.lookup x)
    (hkept : ∀ o text, s.objs.lookup x = some o → Holds s.heap o text → Holds t.heap o text) :
    t.value x = s.value x := by
  cases ho : s.objs.lookup x with
  | none =>
      rw [value_of_none ho]
      exact value_of_none (hlookup.trans ho)
  | some o =>
      obtain ⟨text, hholds⟩ := h.holds x o ho
      rw [hholds.value ho]
      exact (hkept o text ho hholds).value (hlookup.trans ho)

theorem Inv.value_isSome (h : Inv s) : (s.value x).isSome ↔ x ∈ s.objs := by
  rw [← AList.lookup_isSome]
  cases hx : s.objs.lookup x with
  | none =>
      rw [value_of_none hx]
      simp
  | some o =>
      obtain ⟨text, hholds⟩ := h.holds x o hx
      rw [hholds.value hx]
      simp

/-- **What well-behaved programs keep is what the objects promise.** -/
theorem Inv.sound (h : Inv s) : Sound s where
  text := by
    intro x o hx
    obtain ⟨text, hlen, ⟨-, hempty⟩ | ⟨b, rest, hb, hlookup⟩⟩ := h.holds x o hx
    · left
      rw [hlen, hempty]
      rfl
    · right
      refine ⟨b, _, hb, hlookup, ?_, ?_⟩
      · rw [hlen]
        simp
      · rw [hlen, List.take_left' (by simp)]
        simp
  apart := fun x y o o' b hx hy hb hb' => eq_of_owned h.owned_nodup hx hy hb hb'
  once := ⟨h.made_nodup, h.account⟩

end Inv

/-! ## What the members do -/

section Members

variable {s : Store} {self other : Fields} {text : List Byte} {rest : List (Option Byte)}
  {x y : Nat} {mtype : Int}

/-- A new object at `x`, with a new buffer that begins with its bytes. -/
def Store.give (s : Store) (x : Nat) (mtype : Int) (text : List Byte)
    (rest : List (Option Byte)) : Store where
  objs := s.objs.insert x ⟨mtype, .at s.book.made.length, text.length⟩
  heap := s.heap.insert s.book.made.length (text.map some ++ rest)
  book := s.book.record [s.book.made.length] []

/-- Allocating a buffer and filling all of it. -/
theorem fill_alloc (s : Store) (bytes : List (Option Byte)) :
    (s.alloc bytes.length).1.fill s.book.made.length bytes =
      some { s with
        heap := s.heap.insert s.book.made.length bytes
        book := s.book.record [s.book.made.length] [] } := by
  have hlookup : (s.alloc bytes.length).1.heap.lookup s.book.made.length =
      some (List.replicate bytes.length none) := AList.lookup_insert _
  have hstore : storeAll (List.replicate bytes.length none) 0 bytes = some bytes := by
    have hall : storeAll ([] ++ List.replicate bytes.length none ++ [])
        ([] : List (Option Byte)).length bytes = some ([] ++ bytes ++ []) :=
      storeAll_append List.length_replicate
    simpa using hall
  unfold Store.fill
  rw [hlookup, Option.bind_some, hstore, Option.map_some]
  simp only [Store.alloc, AList.insert_insert]

/-- And then setting the members of an object. -/
theorem fill_alloc_set (s : Store) (bytes : List (Option Byte)) (x : Nat) (o : Fields) :
    ((s.alloc bytes.length).1.fill s.book.made.length bytes).bind (fun t => some (t.set x o)) =
      some ⟨s.objs.insert x o, s.heap.insert s.book.made.length bytes,
        s.book.record [s.book.made.length] []⟩ := by
  rw [fill_alloc]
  rfl

theorem default_eq (s : Store) (x : Nat) : s.default x = some (s.give x 0 [] [some 0]) :=
  fill_alloc_set s [some 0] x ⟨0, .at s.book.made.length, 0⟩

theorem text_some_eq (s : Store) (x : Nat) (mtype : Int) (text : List Byte) :
    s.text x mtype (some text) = some (s.give x mtype text []) := by
  have hset := fill_alloc_set s (text.map some) x ⟨mtype, .at s.book.made.length, text.length⟩
  rw [List.length_map] at hset
  unfold Store.give
  rw [List.append_nil]
  exact hset

/-- Nothing owns the buffer that is made for a null text. -/
theorem text_none_eq (s : Store) (x : Nat) (mtype : Int) :
    s.text x mtype none = some ⟨s.objs.insert x ⟨mtype, .uninit, 0⟩,
      s.heap.insert s.book.made.length [some 0], s.book.record [s.book.made.length] []⟩ :=
  fill_alloc_set s [some 0] x ⟨mtype, .uninit, 0⟩

/-- A copy has the bytes of its source. -/
theorem copy_eq (h : Holds s.heap other text) (hfresh : other.mtext ≠ .at s.book.made.length) :
    s.copy x other = some (s.give x other.mtype text []) := by
  have hbytes : (s.alloc other.mtextL).1.bytes other.mtext other.mtextL = some (text.map some) :=
    (h.insert hfresh).bytes
  have hset := fill_alloc_set s (text.map some) x
    ⟨other.mtype, .at s.book.made.length, other.mtextL⟩
  rw [List.length_map, ← h.1] at hset
  unfold Store.give
  rw [List.append_nil, ← h.1, ← hset]
  show ((s.alloc other.mtextL).1.bytes other.mtext other.mtextL).bind _ = _
  rw [hbytes, Option.bind_some]
  rfl

/-- A new object with a buffer of its own. -/
theorem Inv.give (h : Inv s) (hx : x ∉ s.objs) : Inv (s.give x mtype text rest) where
  holds := by
    intro z o hz
    rcases Recycling.lookup_insert_eq_some.mp hz with ⟨rfl, rfl⟩ | ⟨_, hz⟩
    · exact ⟨text, rfl, .inr ⟨_, rest, rfl, AList.lookup_insert _⟩⟩
    · obtain ⟨text, hholds⟩ := h.holds z o hz
      exact ⟨text, hholds.insert (h.fresh hz)⟩
  ids := by
    show s.book.made ++ [s.book.made.length] = List.range (s.book.made ++ _).length
    rw [List.length_append, List.length_singleton, List.range_succ, ← h.ids]
  account := by
    have hmove : (owned s.objs ++ [s.book.made.length]).Perm
        ([] ++ owned (s.give x mtype text rest).objs ++ []) := by
      show List.Perm _ ([] ++ owned (s.objs.insert x _) ++ [])
      rw [owned_insert, owned_erase_of_notMem hx, List.nil_append, List.append_nil]
      exact List.perm_append_comm
    exact Missing.record h.account hmove

theorem Inv.value_give (h : Inv s) :
    (s.give x mtype text rest).value = Function.update s.value x (some ⟨mtype, text⟩) := by
  funext z
  by_cases hz : z = x
  · subst hz
    rw [Function.update_self]
    have hlookup : (s.give z mtype text rest).objs.lookup z =
        some ⟨mtype, .at s.book.made.length, text.length⟩ := AList.lookup_insert _
    exact Holds.value ⟨rfl, .inr ⟨_, rest, rfl, AList.lookup_insert _⟩⟩ hlookup
  · rw [Function.update_of_ne hz]
    refine h.value_frame (AList.lookup_insert_ne hz) ?_
    intro o text' ho hholds
    exact hholds.insert (h.fresh ho)

/-- A copy is a new object with the value of its source. -/
theorem Inv.copy (h : Inv s) (hx : s.objs.lookup x = none) (hy : s.objs.lookup y = some other) :
    ∃ s', s.copy x other = some s' ∧ Inv s' ∧
      s'.value = Function.update s.value x (s.value y) := by
  obtain ⟨text, hholds⟩ := h.holds y other hy
  refine ⟨_, copy_eq hholds (h.fresh hy), h.give (AList.lookup_eq_none.mp hx), ?_⟩
  rw [h.value_give, hholds.value hy]

/-- Without an object its buffer has been freed, and the others are as they were. -/
theorem Inv.destroy (h : Inv s) (hx : s.objs.lookup x = some self) :
    ∃ s', s.destroy x self = some s' ∧ s'.objs = s.objs.erase x ∧ Inv s' ∧
      s'.value = Function.update s.value x none := by
  have hperm := owned_perm hx
  -- what is left of the heap still holds the texts of the others
  obtain ⟨heap, gone, hdelete, hgone, hkept⟩ : ∃ heap gone,
      s.delete self.mtext = some ⟨s.objs, heap, s.book.record [] gone⟩ ∧
        gone = self.mtext.buffer.toList ∧
        ∀ z o text, z ≠ x → s.objs.lookup z = some o → Holds s.heap o text →
          Holds heap o text := by
    obtain ⟨text, _, ⟨hnull, _⟩ | ⟨b, rest, hb, hlookup⟩⟩ := h.holds x self hx
    · refine ⟨s.heap, [], ?_, by rw [hnull]; rfl, fun z o text _ _ hholds => hholds⟩
      rw [hnull]
      simp only [Store.delete, Ledger.record, List.append_nil]
    · refine ⟨s.heap.erase b, [b], ?_, by rw [hb]; rfl, fun z o text hne hz hholds => ?_⟩
      · have hmem : b ∈ s.heap := AList.lookup_isSome.mp (by rw [hlookup]; rfl)
        rw [hb]
        simp only [Store.delete]
        rw [if_pos hmem]
      · exact hholds.erase fun hob => hne (eq_of_owned h.owned_nodup hz hx hob hb)
  refine ⟨⟨s.objs.erase x, heap, s.book.record [] gone⟩, by rw [Store.destroy, hdelete]; rfl, rfl,
    ⟨?_, ?_, ?_⟩, ?_⟩
  · intro z o hz
    obtain ⟨hne, hz⟩ := Recycling.lookup_erase_eq_some.mp hz
    obtain ⟨text, hholds⟩ := h.holds z o hz
    exact ⟨text, hkept z o text hne hz hholds⟩
  · show s.book.made ++ [] = List.range (s.book.made ++ []).length
    rw [List.append_nil]
    exact h.ids
  · have hmove : (owned s.objs ++ []).Perm (gone ++ owned (s.objs.erase x) ++ []) := by
      rw [List.append_nil, List.append_nil, hgone]
      exact hperm
    exact Missing.record h.account hmove
  · funext z
    by_cases hz : z = x
    · subst hz
      rw [Function.update_self]
      exact value_of_none (AList.lookup_erase _ _)
    · rw [Function.update_of_ne hz]
      refine h.value_frame (AList.lookup_erase_ne hz) ?_
      intro o text ho hholds
      exact hkept z o text hz ho hholds

/-- An object without bytes hands its buffer over, and keeps its value. -/
theorem Inv.move (h : Inv s) (hx : s.objs.lookup x = none) (hy : s.objs.lookup y = some other)
    (hempty : other.mtextL = 0) :
    ∃ s', s.move x y other = some s' ∧ Inv s' ∧
      s'.value = Function.update s.value x (s.value y) := by
  have hxy : y ≠ x := Recycling.ne_of_lookup hx hy
  obtain ⟨text, hholds⟩ := h.holds y other hy
  obtain rfl : text = [] := List.length_eq_zero_iff.mp (hholds.1.symm.trans hempty)
  have hset := hholds.mtext_ne_uninit
  have hsource : Holds s.heap { other with mtext := .null } [] := ⟨hempty, .inl ⟨rfl, rfl⟩⟩
  refine ⟨_, if_neg hset, ⟨?_, h.ids, ?_⟩, ?_⟩
  · intro z o hz
    rcases Recycling.lookup_insert_eq_some.mp hz with ⟨_, rfl⟩ | ⟨_, hz⟩
    · exact ⟨[], hsource⟩
    · rcases Recycling.lookup_insert_eq_some.mp hz with ⟨_, rfl⟩ | ⟨_, hz⟩
      · exact ⟨[], hholds⟩
      · exact h.holds z o hz
  · exact h.account.perm (owned_hand_over hx hy hxy rfl).symm
  · funext z
    have hlookup : ((s.objs.insert x other).insert y { other with mtext := .null }).lookup z =
        if z = y then some { other with mtext := .null }
        else if z = x then some other else s.objs.lookup z := by
      rw [Recycling.lookup_insert_eq, Recycling.lookup_insert_eq]
    rw [hholds.value hy]
    by_cases hz : z = x
    · subst hz
      rw [if_neg hxy.symm, if_pos rfl] at hlookup
      rw [Function.update_self]
      exact Holds.value hholds hlookup
    rw [Function.update_of_ne hz]
    by_cases hzy : z = y
    · subst hzy
      rw [if_pos rfl] at hlookup
      rw [hholds.value hy]
      exact Holds.value (o := { other with mtext := .null }) hsource hlookup
    · rw [if_neg hzy, if_neg hz] at hlookup
      refine h.value_frame hlookup ?_
      intro o text _ hother
      exact hother

/-- Assigning a copy is destroying the object and constructing it again. -/
theorem assignCopy_eq (s : Store) (x : Nat) (self other : Fields) :
    s.assignCopy x self other = (s.destroy x self).bind fun t => t.copy x other := by
  unfold Store.assignCopy Store.destroy
  cases s.delete self.mtext with
  | none => rfl
  | some t =>
      show ((t.alloc other.mtextL).1.bytes other.mtext other.mtextL).bind _ =
        ((t.alloc other.mtextL).1.bytes other.mtext other.mtextL).bind _
      cases (t.alloc other.mtextL).1.bytes other.mtext other.mtextL with
      | none => rfl
      | some bytes =>
          simp only [Option.bind_some, Store.fill, AList.lookup_insert]
          cases storeAll (List.replicate other.mtextL none) 0 bytes with
          | none => rfl
          | some buf => exact congrArg (fun objs => some (Store.mk objs _ _)) insert_erase.symm

/-- And so is moving to it. -/
theorem assignMove_eq (s : Store) (x y : Nat) (self other : Fields) :
    s.assignMove x y self other = (s.destroy x self).bind fun t => t.move x y other := by
  unfold Store.assignMove Store.destroy
  cases s.delete self.mtext with
  | none => rfl
  | some t =>
      show (if other.mtext = .uninit then none else _) = if other.mtext = .uninit then none else _
      congr 1
      exact congrArg (fun objs : AList fun _ : Nat => Fields =>
        some (Store.mk (objs.insert y _) _ _)) insert_erase.symm

end Members

/-! ## One step -/

section Step

variable {s : Store}

/-- What `exec` makes of a well-behaved act. -/
def Meets (s : Store) (a : Act) : Prop :=
  ∃ s', s.exec a = some s' ∧ Inv s' ∧ s'.value = act s.value a

theorem meets_of_eq {a : Act} {s' : Store} (hexec : s.exec a = some s') (hinv : Inv s')
    (hvalue : s'.value = act s.value a) : Meets s a := ⟨s', hexec, hinv, hvalue⟩

/-- An act that is not done changes nothing. -/
theorem meets_of_skip {a : Act} (h : Inv s) (hexec : s.exec a = some s)
    (hvalue : act s.value a = s.value) : Meets s a := ⟨s, hexec, h, hvalue.symm⟩

theorem Inv.value_isNone (h : Inv s) {x : Nat} : (s.value x).isNone ↔ x ∉ s.objs := by
  rw [← h.value_isSome]
  cases s.value x <;> simp

theorem meets_default (h : Inv s) (x : Nat) : Meets s (.default x) := by
  by_cases hx : x ∈ s.objs
  · exact meets_of_skip h (if_pos hx) (if_pos (h.value_isSome.mpr hx))
  · refine meets_of_eq ((if_neg hx).trans (default_eq s x)) (h.give hx) ?_
    exact h.value_give.trans (if_neg fun hv => hx (h.value_isSome.mp hv)).symm

theorem meets_text (h : Inv s) (x : Nat) (mtype : Int) (text : List Byte) :
    Meets s (.text x mtype (some text)) := by
  by_cases hx : x ∈ s.objs
  · exact meets_of_skip h (if_pos hx) (if_pos (h.value_isSome.mpr hx))
  · refine meets_of_eq ((if_neg hx).trans (text_some_eq s x mtype text)) (h.give hx) ?_
    exact h.value_give.trans (if_neg fun hv => hx (h.value_isSome.mp hv)).symm

theorem mem_of_lookup {objs : AList fun _ : Nat => Fields} {x : Nat} {o : Fields}
    (h : objs.lookup x = some o) : x ∈ objs := AList.lookup_isSome.mp (by rw [h]; rfl)

/--
An act that constructs from another object does nothing where there is one already, or
from where there is none.
-/
theorem meets_construct (h : Inv s) {x y : Nat} {a : Act} {construct : Fields → Option Store}
    (hexec : s.exec a = match s.objs.lookup x, s.objs.lookup y with
      | none, some other => construct other
      | _, _ => some s)
    (hact : act s.value a = act s.value (.copy x y))
    (hmeets : ∀ other, s.objs.lookup x = none → s.objs.lookup y = some other →
      ∃ s', construct other = some s' ∧ Inv s' ∧
        s'.value = Function.update s.value x (s.value y)) : Meets s a := by
  cases hx : s.objs.lookup x with
  | some self =>
      refine meets_of_skip h (by rw [hexec, hx]) (hact.trans (if_neg ?_))
      intro hc
      exact h.value_isNone.mp hc.1 (mem_of_lookup hx)
  | none =>
      cases hy : s.objs.lookup y with
      | none =>
          refine meets_of_skip h (by rw [hexec, hx, hy]) (hact.trans (if_neg ?_))
          intro hc
          exact AList.lookup_eq_none.mp hy (h.value_isSome.mp hc.2)
      | some other =>
          obtain ⟨s', hconstruct, hinv, hvalue⟩ := hmeets other hx hy
          refine meets_of_eq (by rw [hexec, hx, hy]; exact hconstruct) hinv ?_
          rw [hact, hvalue]
          exact (if_pos ⟨h.value_isNone.mpr (AList.lookup_eq_none.mp hx),
            h.value_isSome.mpr (mem_of_lookup hy)⟩).symm

theorem meets_copy (h : Inv s) (x y : Nat) : Meets s (.copy x y) := by
  refine meets_construct h rfl rfl ?_
  intro other hx hy
  exact h.copy hx hy

theorem meets_move (h : Inv s) {x y : Nat} (hok : s.Ok (.move x y)) : Meets s (.move x y) := by
  refine meets_construct h rfl rfl ?_
  intro other hx hy
  exact h.move hx hy (hok (AList.lookup_eq_none.mp hx) other hy)

theorem meets_destroy (h : Inv s) (x : Nat) : Meets s (.destroy x) := by
  cases hx : s.objs.lookup x with
  | none =>
      refine meets_of_skip h (by rw [Store.exec, hx]) ?_
      rw [act, ← value_of_none hx]
      exact Function.update_eq_self x s.value
  | some self =>
      obtain ⟨s', hdestroy, _, hinv, hvalue⟩ := h.destroy hx
      exact meets_of_eq (by rw [Store.exec, hx]; exact hdestroy) hinv hvalue

/--
An act that assigns from another object destroys and constructs. From the object itself
it does nothing.
-/
theorem meets_assign (h : Inv s) {x y : Nat} {a : Act} {assign : Fields → Fields → Option Store}
    {construct : Store → Fields → Option Store}
    (hexec : s.exec a = match s.objs.lookup x, s.objs.lookup y with
      | some self, some other => if x = y then some s else assign self other
      | _, _ => some s)
    (hassign : ∀ self other,
      assign self other = (s.destroy x self).bind fun t => construct t other)
    (hact : act s.value a = act s.value (.assignCopy x y))
    (hmeets : ∀ t other, Inv t → x ∈ s.objs → x ≠ y → s.objs.lookup y = some other →
      t.objs.lookup x = none → t.objs.lookup y = some other →
      ∃ s', construct t other = some s' ∧ Inv s' ∧
        s'.value = Function.update t.value x (t.value y)) : Meets s a := by
  cases hx : s.objs.lookup x with
  | none =>
      refine meets_of_skip h (by rw [hexec, hx]) (hact.trans (if_neg ?_))
      intro hc
      exact AList.lookup_eq_none.mp hx (h.value_isSome.mp hc.1)
  | some self =>
      cases hy : s.objs.lookup y with
      | none =>
          refine meets_of_skip h (by rw [hexec, hx, hy]) (hact.trans (if_neg ?_))
          intro hc
          exact AList.lookup_eq_none.mp hy (h.value_isSome.mp hc.2)
      | some other =>
          have hupdate : act s.value a = Function.update s.value x (s.value y) := by
            rw [hact]
            exact if_pos ⟨h.value_isSome.mpr (mem_of_lookup hx),
              h.value_isSome.mpr (mem_of_lookup hy)⟩
          by_cases hne : x = y
          · subst hne
            refine meets_of_skip h (by rw [hexec, hx]; exact if_pos rfl) ?_
            rw [hupdate, Function.update_eq_self]
          · obtain ⟨t, hdestroy, hobjs, hinv, hvalue⟩ := h.destroy hx
            have hxt : t.objs.lookup x = none := by rw [hobjs, AList.lookup_erase]
            have hyt : t.objs.lookup y = some other := by
              rw [hobjs, AList.lookup_erase_ne (Ne.symm hne), hy]
            obtain ⟨s', hconstruct, hinv', hvalue'⟩ :=
              hmeets t other hinv (mem_of_lookup hx) hne hy hxt hyt
            have hexec' : s.exec a = some s' := by
              rw [hexec, hx, hy]
              dsimp only
              rw [if_neg hne, hassign, hdestroy]
              exact hconstruct
            refine meets_of_eq hexec' hinv' ?_
            rw [hvalue', hvalue, hupdate, Function.update_idem,
              Function.update_of_ne (Ne.symm hne)]

theorem meets_assignCopy (h : Inv s) (x y : Nat) : Meets s (.assignCopy x y) := by
  refine meets_assign h rfl (assignCopy_eq s x) rfl ?_
  intro t other ht _ _ _ hxt hyt
  exact ht.copy hxt hyt

theorem meets_assignMove (h : Inv s) {x y : Nat} (hok : s.Ok (.assignMove x y)) :
    Meets s (.assignMove x y) := by
  refine meets_assign h rfl (assignMove_eq s x y) rfl ?_
  intro t other ht hx hne hy hxt hyt
  exact ht.move hxt hyt (hok hx hne other hy)

/-- **A well-behaved act does to the values what it is to do, and keeps the invariant.** -/
theorem meets_of_ok (h : Inv s) {a : Act} (hok : s.Ok a) : Meets s a := by
  cases a with
  | default x => exact meets_default h x
  | text x mtype mtext =>
      cases mtext with
      | some text => exact meets_text h x mtype text
      | none => exact meets_of_skip h (if_pos hok) (if_pos (h.value_isSome.mpr hok))
  | copy x y => exact meets_copy h x y
  | move x y => exact meets_move h hok
  | assignCopy x y => exact meets_assignCopy h x y
  | assignMove x y => exact meets_assignMove h hok
  | destroy x => exact meets_destroy h x

/-- The buffer for a null text is lost. -/
theorem not_sound_text_none (h : Inv s) {x : Nat} {mtype : Int} (hx : x ∉ s.objs) {s' : Store}
    (htext : s.text x mtype none = some s') : ¬Sound s' := by
  rw [text_none_eq] at htext
  cases htext
  intro hsound
  have hbefore := Missing.length h.account
  have hafter := Missing.length hsound.once.2
  rw [owned_insert, owned_erase_of_notMem hx] at hafter
  simp only [Ledger.record, List.length_append, List.length_singleton, List.length_nil,
    Ptr.buffer, Option.toList_none, List.nil_append] at hbefore hafter
  omega

/-- The source of a move keeps its length. -/
theorem not_sound_move {t s' : Store} {x y : Nat} {other : Fields} (hlen : other.mtextL ≠ 0)
    (hmove : t.move x y other = some s') : ¬Sound s' := by
  unfold Store.move at hmove
  split at hmove
  · cases hmove
  · cases hmove
    intro hsound
    rcases hsound.text y _ (AList.lookup_insert _) with hzero | ⟨b, buf, hb, _⟩
    · exact hlen hzero
    · cases hb

/-- **An act that is not well behaved shows at once.** -/
theorem not_sound_of_not_ok (h : Inv s) {a : Act} (hok : ¬s.Ok a) {s' : Store}
    (hexec : s.exec a = some s') : ¬Sound s' := by
  cases a with
  | text x mtype mtext =>
      cases mtext with
      | some text => exact absurd trivial hok
      | none =>
          have hx : x ∉ s.objs := hok
          rw [Store.exec, if_neg hx] at hexec
          exact not_sound_text_none h hx hexec
  | move x y =>
      simp only [Store.Ok, not_forall] at hok
      obtain ⟨hx, other, hy, hlen⟩ := hok
      rw [Store.exec, AList.lookup_eq_none.mpr hx, Option.mem_def.mp hy] at hexec
      exact not_sound_move hlen hexec
  | assignMove x y =>
      simp only [Store.Ok, not_forall] at hok
      obtain ⟨hx, hne, other, hy, hlen⟩ := hok
      obtain ⟨self, hself⟩ := Option.isSome_iff_exists.mp (AList.lookup_isSome.mpr hx)
      rw [Store.exec, hself, Option.mem_def.mp hy] at hexec
      dsimp only at hexec
      rw [if_neg hne, assignMove_eq] at hexec
      obtain ⟨t, _, hmove⟩ := Option.bind_eq_some_iff.mp hexec
      exact not_sound_move hlen hmove
  | default x => exact absurd trivial hok
  | copy x y => exact absurd trivial hok
  | assignCopy x y => exact absurd trivial hok
  | destroy x => exact absurd trivial hok

end Step

/-! ## Runs -/

/--
**When objects are values.**

In every state of a run the objects are sound, and every act does to the values what it
is to do, exactly if no object is constructed from a null text and nothing that has
bytes is moved from.
-/
theorem values_iff (as : List Act) :
    AllSteps step (fun s a => ∀ t ∈ s, ∃ t' ∈ step s a, t'.value = act t.value a)
        (some Store.init) as ∧
      AllStates step (fun s => ∃ t ∈ s, Sound t) (some Store.init) as ↔
    AllSteps step (fun s a => ∀ t ∈ s, t.Ok a) (some Store.init) as := by
  refine allSteps_and_allStates_iff_of_broken (I := fun s => ∃ t ∈ s, Inv t)
    ⟨Store.init, rfl, inv_init⟩ ?_ ?_ ?_ as
  · rintro s ⟨t, ht, hinv⟩
    exact ⟨t, ht, hinv.sound⟩
  · rintro s a ⟨t, ht, hinv⟩ hok
    obtain rfl := Option.mem_def.mp ht
    obtain ⟨t', hexec, hinv', hvalue⟩ := meets_of_ok hinv (hok t rfl)
    refine ⟨?_, t', hexec, hinv'⟩
    intro t₁ ht₁
    obtain rfl := Option.some.inj ht₁
    exact ⟨t', hexec, hvalue⟩
  · rintro s a ⟨t, ht, hinv⟩ hok ⟨t', ht', hsound⟩
    obtain rfl := Option.mem_def.mp ht
    have hbad : ¬t.Ok a := by
      intro hgood
      apply hok
      intro t₁ ht₁
      obtain rfl := Option.some.inj ht₁
      exact hgood
    exact not_sound_of_not_ok hinv hbad ht' hsound

/-- When no object is left, every buffer has been freed, and once. -/
theorem Sound.freed_once {s : Store} (h : Sound s) (hnone : s.objs = ∅) :
    ∀ b ∈ s.book.made, s.book.freed.count b = 1 := by
  have haccount := h.once.2
  rw [hnone] at haccount
  exact (Missing.reconciled_iff_freed_once haccount h.once.1).mp haccount

/-- Copying what has been moved from reads at null, and a null text is never set. -/
theorem values_broken :
    [Act.text 0 1 (some [120]), .move 1 0, .copy 2 0].foldl step (some Store.init) = none ∧
    [Act.text 0 1 none, .destroy 0].foldl step (some Store.init) = none :=
  ⟨rfl, rfl⟩

end MsgdataObjects

end NanomsgDemo.Net

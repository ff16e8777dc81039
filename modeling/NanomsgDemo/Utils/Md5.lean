import Mathlib.Algebra.GroupWithZero.Nat
import NanomsgDemo.Lib.Absorb
import NanomsgDemo.Lib.WordBytes
import NanomsgDemo.Net.CString
import NanomsgDemo.Utils.Passed

/-!
# `MD5`

The digest of `libutils/ext/md5.c` and its text from `libutils/ext/md5hl.c`. A context
takes a message in pieces; where the first piece begins its `buffer` has never been
written. Each copy is one that may not fit, and each block that is read from the buffer
may have a cell without a value.

The context always is that of the message so far: a piece does what the same bytes do
at any other cut. The one exception is a piece of almost 4 GiB that does not begin at a
block. There `i + 63` wraps around in the loop of `MD5Update`, and the loop goes on
behind the end of the piece.
-/

namespace NanomsgDemo.Utils.Md5

open Net Buffers WordBytes Absorb

/-! ## The source -/

/-- `state`. -/
structure State where
  a : UInt32
  b : UInt32
  c : UInt32
  d : UInt32
  deriving DecidableEq

/-- `MD5_CTX`. -/
structure MD5_CTX where
  state : State
  count0 : UInt32
  count1 : UInt32
  buffer : Buffer

/-- The magic initialization constants. -/
def initialState : State := ⟨0x67452301, 0xefcdab89, 0x98badcfe, 0x10325476⟩

/-- `MD5Init`. The buffer stays as it is. -/
def md5Init (context : MD5_CTX) : MD5_CTX :=
  { context with state := initialState, count0 := 0, count1 := 0 }

def F (x y z : UInt32) : UInt32 := (x &&& y) ||| (~~~x &&& z)

def G (x y z : UInt32) : UInt32 := (x &&& z) ||| (y &&& ~~~z)

def H (x y z : UInt32) : UInt32 := x ^^^ y ^^^ z

def I (x y z : UInt32) : UInt32 := y ^^^ (x ||| ~~~z)

def ROTATE_LEFT (x n : UInt32) : UInt32 := (x <<< n) ||| (x >>> (32 - n))

/-- What `FF`, `GG`, `HH` and `II` assign to their first argument. -/
def assigned (f : UInt32 → UInt32 → UInt32 → UInt32) (a b c d x s ac : UInt32) : UInt32 :=
  ROTATE_LEFT (a + (f b c d + x + ac)) s + b

def FF := assigned F

def GG := assigned G

def HH := assigned H

def II := assigned I

def S11 : UInt32 := 7
def S12 : UInt32 := 12
def S13 : UInt32 := 17
def S14 : UInt32 := 22
def S21 : UInt32 := 5
def S22 : UInt32 := 9
def S23 : UInt32 := 14
def S24 : UInt32 := 20
def S31 : UInt32 := 4
def S32 : UInt32 := 11
def S33 : UInt32 := 16
def S34 : UInt32 := 23
def S41 : UInt32 := 6
def S42 : UInt32 := 10
def S43 : UInt32 := 15
def S44 : UInt32 := 21

/-- `MD5Transform`. -/
def md5Transform (state : State) (block : List Byte) : State :=
  let a := state.a
  let b := state.b
  let c := state.c
  let d := state.d
  let x : Nat → UInt32 := fun i => (words block).getD i 0
  -- Round 1
  let a := FF a b c d (x 0) S11 0xd76aa478
  let d := FF d a b c (x 1) S12 0xe8c7b756
  let c := FF c d a b (x 2) S13 0x242070db
  let b := FF b c d a (x 3) S14 0xc1bdceee
  let a := FF a b c d (x 4) S11 0xf57c0faf
  let d := FF d a b c (x 5) S12 0x4787c62a
  let c := FF c d a b (x 6) S13 0xa8304613
  let b := FF b c d a (x 7) S14 0xfd469501
  let a := FF a b c d (x 8) S11 0x698098d8
  let d := FF d a b c (x 9) S12 0x8b44f7af
  let c := FF c d a b (x 10) S13 0xffff5bb1
  let b := FF b c d a (x 11) S14 0x895cd7be
  let a := FF a b c d (x 12) S11 0x6b901122
  let d := FF d a b c (x 13) S12 0xfd987193
  let c := FF c d a b (x 14) S13 0xa679438e
  let b := FF b c d a (x 15) S14 0x49b40821
  -- Round 2
  let a := GG a b c d (x 1) S21 0xf61e2562
  let d := GG d a b c (x 6) S22 0xc040b340
  let c := GG c d a b (x 11) S23 0x265e5a51
  let b := GG b c d a (x 0) S24 0xe9b6c7aa
  let a := GG a b c d (x 5) S21 0xd62f105d
  let d := GG d a b c (x 10) S22 0x2441453
  let c := GG c d a b (x 15) S23 0xd8a1e681
  let b := GG b c d a (x 4) S24 0xe7d3fbc8
  let a := GG a b c d (x 9) S21 0x21e1cde6
  let d := GG d a b c (x 14) S22 0xc33707d6
  let c := GG c d a b (x 3) S23 0xf4d50d87
  let b := GG b c d a (x 8) S24 0x455a14ed
  let a := GG a b c d (x 13) S21 0xa9e3e905
  let d := GG d a b c (x 2) S22 0xfcefa3f8
  let c := GG c d a b (x 7) S23 0x676f02d9
  let b := GG b c d a (x 12) S24 0x8d2a4c8a
  -- Round 3
  let a := HH a b c d (x 5) S31 0xfffa3942
  let d := HH d a b c (x 8) S32 0x8771f681
  let c := HH c d a b (x 11) S33 0x6d9d6122
  let b := HH b c d a (x 14) S34 0xfde5380c
  let a := HH a b c d (x 1) S31 0xa4beea44
  let d := HH d a b c (x 4) S32 0x4bdecfa9
  let c := HH c d a b (x 7) S33 0xf6bb4b60
  let b := HH b c d a (x 10) S34 0xbebfbc70
  let a := HH a b c d (x 13) S31 0x289b7ec6
  let d := HH d a b c (x 0) S32 0xeaa127fa
  let c := HH c d a b (x 3) S33 0xd4ef3085
  let b := HH b c d a (x 6) S34 0x4881d05
  let a := HH a b c d (x 9) S31 0xd9d4d039
  let d := HH d a b c (x 12) S32 0xe6db99e5
  let c := HH c d a b (x 15) S33 0x1fa27cf8
  let b := HH b c d a (x 2) S34 0xc4ac5665
  -- Round 4
  let a := II a b c d (x 0) S41 0xf4292244
  let d := II d a b c (x 7) S42 0x432aff97
  let c := II c d a b (x 14) S43 0xab9423a7
  let b := II b c d a (x 5) S44 0xfc93a039
  let a := II a b c d (x 12) S41 0x655b59c3
  let d := II d a b c (x 3) S42 0x8f0ccc92
  let c := II c d a b (x 10) S43 0xffeff47d
  let b := II b c d a (x 1) S44 0x85845dd1
  let a := II a b c d (x 8) S41 0x6fa87e4f
  let d := II d a b c (x 15) S42 0xfe2ce6e0
  let c := II c d a b (x 6) S43 0xa3014314
  let b := II b c d a (x 13) S44 0x4e0811a1
  let a := II a b c d (x 4) S41 0xf7537e82
  let d := II d a b c (x 11) S42 0xbd3af235
  let c := II c d a b (x 2) S43 0x2ad7d2bb
  let b := II b c d a (x 9) S44 0xeb86d391
  ⟨state.a + a, state.b + b, state.c + c, state.d + d⟩

theorem toNat_add_64 {i : UInt32} (h : i.toNat + 64 < 2 ^ 32) : (i + 64).toNat = i.toNat + 64 := by
  rw [UInt32.toNat_add]
  exact Nat.mod_eq_of_lt h

/-- The `for` of `MD5Update`: the state, and `i`. -/
def transformFor (input : Bytes) (state : State) (i : UInt32) : Option (State × UInt32) :=
  if i + 63 < UInt32.ofNat input.bytes.length then
    if i.toNat + 64 ≤ input.bytes.length then
      transformFor input (md5Transform state ((input.bytes.drop i.toNat).take 64)) (i + 64)
    else none
  else some (state, i)
  termination_by input.bytes.length - i.toNat
  decreasing_by
    have := input.length_lt
    rw [toNat_add_64 (by omega)]
    omega

/-- `idx`, the number of bytes mod 64. -/
def MD5_CTX.idx (context : MD5_CTX) : UInt32 := context.count0 >>> 3 &&& 0x3F

/-- The update of `count` in `MD5Update`. -/
def MD5_CTX.addCount (context : MD5_CTX) (inputLen : UInt32) : MD5_CTX :=
  let count0 := context.count0 + inputLen <<< 3
  let count1 := if count0 < inputLen <<< 3 then context.count1 + 1 else context.count1
  { context with count0 := count0, count1 := count1 + inputLen >>> 29 }

/-- `MD5Update`. -/
def md5Update (context : MD5_CTX) (input : Bytes) : Option MD5_CTX :=
  let inputLen : UInt32 := UInt32.ofNat input.bytes.length
  let idx := context.idx
  let context := context.addCount inputLen
  let partLen := 64 - idx
  if inputLen ≥ partLen then
    (storeAll context.buffer idx.toNat ((input.bytes.take partLen.toNat).map some)).bind
      fun buffer => (Buffer.read buffer 0 64).bind fun block =>
        (transformFor input (md5Transform context.state block) partLen).bind fun (state, i) =>
          (storeAll buffer 0 ((input.bytes.drop i.toNat).map some)).map fun buffer =>
            { context with state := state, buffer := buffer }
  else
    (storeAll context.buffer idx.toNat (input.bytes.map some)).map fun buffer =>
      { context with buffer := buffer }

def PADDING : List Byte := 0x80 :: List.replicate 63 0

theorem length_take_PADDING (n : Nat) : (PADDING.take n).length < 2 ^ 32 :=
  Nat.lt_of_le_of_lt (List.length_take_le' n PADDING) (by decide)

theorem length_count (count0 count1 : UInt32) : (bytes [count0, count1]).length < 2 ^ 32 := by
  rw [length_bytes]
  exact (by decide : 4 * 2 < 2 ^ 32)

/-- `Encode` of two words. -/
def encodeCount (count0 count1 : UInt32) : Bytes :=
  ⟨bytes [count0, count1], length_count count0 count1⟩

/-- `MD5Pad`. -/
def md5Pad (context : MD5_CTX) : Option MD5_CTX :=
  let bits := encodeCount context.count0 context.count1
  let idx := context.idx
  let padLen := if idx < 56 then 56 - idx else 120 - idx
  (md5Update context ⟨PADDING.take padLen.toNat, length_take_PADDING _⟩).bind fun context =>
    md5Update context bits

/-- `MD5Final`: the digest, and the context set to zero. -/
def md5Final (context : MD5_CTX) : Option (List Byte × MD5_CTX) :=
  (md5Pad context).map fun context =>
    (bytes [context.state.a, context.state.b, context.state.c, context.state.d],
      ⟨⟨0, 0, 0, 0⟩, 0, 0, List.replicate 64 (some 0)⟩)

/-- `hex`. -/
def hex : List Byte := text "0123456789abcdef"

/-- The two characters of a byte. -/
def hexByte (b : Byte) : List Byte := [hex.getD (b >>> 4).toNat 0, hex.getD (b &&& 0x0f).toNat 0]

/--
`MD5End`: the characters that it writes, the NUL among them, or null. `buf` is whether
it is passed a buffer and `mem` whether `malloc` delivers one.
-/
def md5End (context : MD5_CTX) (buf mem : Bool) : Option (Option (List Byte)) :=
  if ¬ buf ∧ ¬ mem then some none
  else
    (md5Final context).map fun (digest, _) =>
      some (digest.flatMap hexByte ++ [0])

/-- `MD5Data`. The context is what the stack holds. -/
def md5Data (context : MD5_CTX) (data : Bytes) (buf mem : Bool) : Option (Option (List Byte)) :=
  (md5Update (md5Init context) data).bind fun context => md5End context buf mem

/-! ## One piece -/

/-- The context is that of a message, as far as it will be read. -/
structure Absorbed (context : MD5_CTX) (message : List Byte) : Prop where
  state : context.state = absorb 64 md5Transform initialState message
  count0 : context.count0 = UInt32.ofNat (8 * message.length)
  count1 : context.count1 = UInt32.ofNat (8 * message.length / 2 ^ 32)
  length : context.buffer.length = 64
  buffer : context.buffer.take (message.length % 64) = (rest 64 message).map some

/-- Where the loop of `MD5Update` ends up, there is no room for 64 bytes below `2 ^ 32`. -/
def Wraps (before len : Nat) : Prop := 2 ^ 32 - 64 < len - (before + len) % 64

theorem md5Init_absorbed {context : MD5_CTX} (h : context.buffer.length = 64) :
    Absorbed (md5Init context) [] :=
  ⟨rfl, rfl, rfl, h, rfl⟩

section Counts

variable {n len : Nat}

theorem toNat_shiftLeft_3 (h : len < 2 ^ 32) :
    (UInt32.ofNat len <<< 3 : UInt32).toNat = 8 * len % 2 ^ 32 := by
  rw [UInt32.toNat_shiftLeft, UInt32.toNat_ofNat_of_lt' h]
  show len <<< 3 % 2 ^ 32 = _
  rw [Nat.shiftLeft_eq, Nat.mul_comm]

/-- The number of bits, its lower half. -/
theorem count0_add (n : Nat) (h : len < 2 ^ 32) :
    UInt32.ofNat (8 * n) + UInt32.ofNat len <<< 3 = UInt32.ofNat (8 * (n + len)) := by
  apply UInt32.toNat_inj.mp
  rw [UInt32.toNat_add, toNat_shiftLeft_3 h, UInt32.toNat_ofNat', UInt32.toNat_ofNat']
  omega

/-- The upper half takes a carry if the lower one has become smaller. -/
theorem count1_add (n : Nat) (h : len < 2 ^ 32) :
    (if UInt32.ofNat (8 * (n + len)) < UInt32.ofNat len <<< 3 then
        UInt32.ofNat (8 * n / 2 ^ 32) + 1
      else UInt32.ofNat (8 * n / 2 ^ 32)) + UInt32.ofNat len >>> 29 =
      UInt32.ofNat (8 * (n + len) / 2 ^ 32) := by
  have hhigh : (UInt32.ofNat len >>> 29 : UInt32).toNat = len / 2 ^ 29 := by
    rw [UInt32.toNat_shiftRight, UInt32.toNat_ofNat_of_lt' h]
    exact Nat.shiftRight_eq_div_pow len 29
  have hcarry : UInt32.ofNat (8 * (n + len)) < UInt32.ofNat len <<< 3 ↔
      8 * (n + len) % 2 ^ 32 < 8 * len % 2 ^ 32 := by
    rw [UInt32.lt_iff_toNat_lt, toNat_shiftLeft_3 h, UInt32.toNat_ofNat']
  apply UInt32.toNat_inj.mp
  rw [UInt32.toNat_add, hhigh, UInt32.toNat_ofNat']
  split
  · rename_i hlt
    have hlt := hcarry.mp hlt
    rw [UInt32.toNat_add, UInt32.toNat_ofNat', UInt32.toNat_one]
    omega
  · rename_i hlt
    have hlt := mt hcarry.mpr hlt
    rw [UInt32.toNat_ofNat']
    omega

end Counts

/-- The loop absorbs the whole blocks from `i` on, or goes on behind the end. -/
theorem transformFor_eq (input : Bytes) (state : State) (i : UInt32)
    (hi : i.toNat ≤ input.bytes.length) :
    let j := input.bytes.length - (input.bytes.length - i.toNat) % 64
    transformFor input state i =
      if 2 ^ 32 - 64 < j then none
      else some (absorb 64 md5Transform state (input.bytes.drop i.toNat), UInt32.ofNat j) := by
  have hlt := input.length_lt
  fun_induction transformFor input state i with
  | case1 state i hmore hinside ih =>
      have hnext : (i + 64).toNat = i.toNat + 64 := toNat_add_64 (by omega)
      have hlong : 64 ≤ (input.bytes.drop i.toNat).length := by
        rw [List.length_drop]
        omega
      have hmod : (input.bytes.length - (i.toNat + 64)) % 64 =
          (input.bytes.length - i.toNat) % 64 := by omega
      dsimp only at ih ⊢
      rw [ih (by omega), hnext, hmod, absorb_long (by decide) hlong, List.drop_drop]
  | case2 state i hmore hinside =>
      -- the comparison can only be true of a sum that has wrapped around
      have hsum := UInt32.lt_iff_toNat_lt.mp hmore
      rw [UInt32.toNat_add, input.toNat_length] at hsum
      have h63 : (63 : UInt32).toNat = 63 := rfl
      rw [h63] at hsum
      dsimp only
      rw [if_pos (by omega)]
  | case3 state i hmore =>
      have hsum := mt UInt32.lt_iff_toNat_lt.mpr hmore
      rw [UInt32.toNat_add, input.toNat_length] at hsum
      have h63 : (63 : UInt32).toNat = 63 := rfl
      rw [h63] at hsum
      have hshort : (input.bytes.drop i.toNat).length < 64 := by
        rw [List.length_drop]
        omega
      have hj : input.bytes.length - (input.bytes.length - i.toNat) % 64 = i.toNat := by omega
      dsimp only
      rw [hj, absorb_short hshort, UInt32.ofNat_toNat, if_neg (by omega)]

section Update

variable {context : MD5_CTX} {message : List Byte}

theorem Absorbed.addCount (h : Absorbed context message) (input : Bytes) :
    (context.addCount (UInt32.ofNat input.bytes.length)).count0 =
        UInt32.ofNat (8 * (message ++ input.bytes).length) ∧
      (context.addCount (UInt32.ofNat input.bytes.length)).count1 =
        UInt32.ofNat (8 * (message ++ input.bytes).length / 2 ^ 32) := by
  have hlt := input.length_lt
  unfold MD5_CTX.addCount
  dsimp only
  rw [h.count0, h.count1, List.length_append, count0_add message.length hlt]
  exact ⟨rfl, count1_add message.length hlt⟩

theorem Absorbed.toNat_idx (h : Absorbed context message) :
    context.idx.toNat = message.length % 64 := by
  have hand : ∀ k, k &&& 63 = k % 64 := fun k => Nat.and_two_pow_sub_one_eq_mod k 6
  unfold MD5_CTX.idx
  rw [h.count0, UInt32.toNat_and, UInt32.toNat_shiftRight, UInt32.toNat_ofNat']
  show (8 * message.length % 2 ^ 32) >>> 3 &&& 63 = _
  rw [hand, Nat.shiftRight_eq_div_pow]
  omega

/-- `partLen`. -/
theorem Absorbed.toNat_partLen (h : Absorbed context message) :
    (64 - context.idx).toNat = 64 - message.length % 64 := by
  rw [UInt32.toNat_sub, h.toNat_idx]
  have h64 : (64 : UInt32).toNat = 64 := rfl
  rw [h64]
  omega

/-- The bytes that wait fill the front of the buffer, the piece comes after them. -/
theorem Absorbed.storeAll_buffer (h : Absorbed context message) {l : List Byte}
    (hl : message.length % 64 + l.length ≤ 64) :
    storeAll context.buffer (message.length % 64 : Nat) (l.map some) =
      some ((rest 64 message ++ l).map some ++
        context.buffer.drop (message.length % 64 + l.length)) := by
  have hfits : message.length % 64 + (l.map some).length ≤ context.buffer.length := by
    rw [List.length_map, h.length]
    exact hl
  rw [storeAll_eq hfits, h.buffer, List.map_append, List.length_map]

/-- A piece that does not fill the block is kept. -/
theorem md5Update_short (h : Absorbed context message) {input : Bytes}
    (hlen : message.length % 64 + input.bytes.length < 64) :
    ∃ context', md5Update context input = some context' ∧
      Absorbed context' (message ++ input.bytes) := by
  have hlt := input.length_lt
  have hwaits := length_rest 64 message
  have hshort : (rest 64 message ++ input.bytes).length < 64 := by
    rw [List.length_append, hwaits]
    exact hlen
  have hstate : absorb 64 md5Transform initialState (message ++ input.bytes) =
      absorb 64 md5Transform initialState message := by
    rw [absorb_append (by decide), absorb_short hshort]
  have hrest : rest 64 (message ++ input.bytes) = rest 64 message ++ input.bytes := by
    rw [rest_append (by decide), rest_short hshort]
  have hpart : ¬ UInt32.ofNat input.bytes.length ≥ 64 - context.idx := by
    rw [ge_iff_le, UInt32.le_iff_toNat_le, input.toNat_length, h.toNat_partLen]
    omega
  have hstore := h.storeAll_buffer (l := input.bytes) (by omega)
  have hupdate : md5Update context input = some
      { context.addCount (UInt32.ofNat input.bytes.length) with
        buffer := (rest 64 message ++ input.bytes).map some ++
          context.buffer.drop (message.length % 64 + input.bytes.length) } := by
    unfold md5Update
    dsimp only
    rw [if_neg hpart, h.toNat_idx]
    exact congrArg (Option.map _) hstore
  refine ⟨_, hupdate, ?_⟩
  · have hmod : (message ++ input.bytes).length % 64 =
        ((rest 64 message ++ input.bytes).map some).length := by
      rw [List.length_map, List.length_append, List.length_append, hwaits]
      omega
    constructor
    · rw [hstate]
      exact h.state
    · exact (h.addCount input).1
    · exact (h.addCount input).2
    · rw [List.length_append, ← hmod, List.length_append, List.length_drop, h.length]
      omega
    · rw [hmod, hrest]
      exact List.take_left' rfl

/-- A piece that fills the block is absorbed, if the loop stops at its end. -/
theorem md5Update_long (h : Absorbed context message) {input : Bytes}
    (hlen : 64 ≤ message.length % 64 + input.bytes.length) :
    (Wraps message.length input.bytes.length → md5Update context input = none) ∧
    (¬ Wraps message.length input.bytes.length →
      ∃ context', md5Update context input = some context' ∧
        Absorbed context' (message ++ input.bytes)) := by
  have hlt := input.length_lt
  have hwaits := length_rest 64 message
  have hpart := h.toNat_partLen
  have hfull : UInt32.ofNat input.bytes.length ≥ 64 - context.idx := by
    rw [ge_iff_le, UInt32.le_iff_toNat_le, input.toNat_length, hpart]
    omega
  -- the first block is what waits and the front of the piece
  generalize hl : input.bytes.take (64 - message.length % 64) = l
  have hllen : l.length = 64 - message.length % 64 := by
    rw [← hl, List.length_take]
    omega
  have hblock : (rest 64 message ++ l).length = 64 := by
    rw [List.length_append, hwaits, hllen]
    omega
  have hdrop : context.buffer.drop (message.length % 64 + l.length) = [] :=
    List.drop_eq_nil_of_le (by rw [h.length]; omega)
  have hstore := h.storeAll_buffer (l := l) (by omega)
  rw [hdrop, List.append_nil] at hstore
  have hread :
      Buffer.read ((rest 64 message ++ l).map some) 0 64 = some (rest 64 message ++ l) := by
    rw [Buffer.read_map_some (by omega), List.drop_zero, List.take_of_length_le (by omega)]
  have hloop := transformFor_eq input (md5Transform context.state (rest 64 message ++ l))
    (64 - context.idx) (by rw [hpart]; omega)
  have hend : input.bytes.length - (input.bytes.length - (64 - message.length % 64)) % 64 =
      input.bytes.length - (message.length + input.bytes.length) % 64 := by omega
  dsimp only at hloop
  rw [hpart, hend] at hloop
  have hupdate : md5Update context input =
      (transformFor input (md5Transform context.state (rest 64 message ++ l))
        (64 - context.idx)).bind fun (state, i) =>
          (storeAll ((rest 64 message ++ l).map some) 0 ((input.bytes.drop i.toNat).map some)).map
            fun buffer => { context.addCount (UInt32.ofNat input.bytes.length) with
              state := state, buffer := buffer } := by
    unfold md5Update
    dsimp only
    rw [if_pos hfull, hpart, h.toNat_idx, hl]
    refine (congrArg (Option.bind · _) hstore).trans ?_
    rw [Option.bind_some, hread, Option.bind_some]
    rfl
  rw [hupdate, hloop]
  constructor
  · intro hwraps
    unfold Wraps at hwraps
    rw [if_pos hwraps, Option.bind_none]
  · intro hwraps
    unfold Wraps at hwraps
    have hj : (UInt32.ofNat (input.bytes.length -
        (message.length + input.bytes.length) % 64)).toNat =
          input.bytes.length - (message.length + input.bytes.length) % 64 :=
      UInt32.toNat_ofNat_of_lt' (by rw [UInt32.size]; omega)
    generalize hr : input.bytes.drop (input.bytes.length -
      (message.length + input.bytes.length) % 64) = r
    have hrlen : r.length = (message ++ input.bytes).length % 64 := by
      rw [← hr, List.length_drop, List.length_append]
      omega
    have hcopy : storeAll ((rest 64 message ++ l).map some) ((0 : Nat) : Int) (r.map some) =
        some (((rest 64 message ++ l).map some).take 0 ++ r.map some ++
          ((rest 64 message ++ l).map some).drop (0 + (r.map some).length)) :=
      storeAll_eq (by rw [List.length_map, List.length_map, hblock, hrlen]; omega)
    rw [if_neg hwraps, Option.bind_some]
    dsimp only
    rw [hj, hr]
    refine ⟨_, congrArg (Option.map _) hcopy, ?_⟩
    -- the same bytes at once: what waits, and then the piece
    have hsplit : rest 64 message ++ input.bytes =
        (rest 64 message ++ l) ++ input.bytes.drop (64 - message.length % 64) := by
      rw [List.append_assoc, ← hl, List.take_append_drop]
    have hlong : 64 ≤ ((rest 64 message ++ l) ++
        input.bytes.drop (64 - message.length % 64)).length := by
      rw [List.length_append]
      omega
    have hstate : absorb 64 md5Transform initialState (message ++ input.bytes) =
        absorb 64 md5Transform (md5Transform (absorb 64 md5Transform initialState message)
          (rest 64 message ++ l)) (input.bytes.drop (64 - message.length % 64)) := by
      rw [absorb_append (by decide), hsplit, absorb_long (by decide) hlong,
        List.take_left' hblock, List.drop_left' hblock]
    have hrest : rest 64 (message ++ input.bytes) =
        rest 64 (input.bytes.drop (64 - message.length % 64)) := by
      rw [rest_append (by decide), hsplit, rest_long (by decide) hlong, List.drop_left' hblock]
    have hwait : rest 64 (message ++ input.bytes) = r := by
      rw [hrest, ← hr]
      unfold rest
      rw [List.drop_drop, List.length_drop]
      congr 1
      omega
    constructor
    · rw [hstate, h.state]
    · exact (h.addCount input).1
    · exact (h.addCount input).2
    · simp only [List.length_append, List.length_take, List.length_drop, List.length_map]
      omega
    · rw [hwait, ← hrlen, List.take_zero, List.nil_append]
      exact List.take_left' (List.length_map some)

/-- **What a piece does to the context of a message.** -/
theorem md5Update_eq (h : Absorbed context message) (input : Bytes) :
    (Wraps message.length input.bytes.length → md5Update context input = none) ∧
    (¬ Wraps message.length input.bytes.length →
      ∃ context', md5Update context input = some context' ∧
        Absorbed context' (message ++ input.bytes)) := by
  by_cases hlen : message.length % 64 + input.bytes.length < 64
  · refine ⟨?_, fun _ => md5Update_short h hlen⟩
    intro hwraps
    unfold Wraps at hwraps
    omega
  · exact md5Update_long h (Nat.le_of_not_lt hlen)

theorem not_wraps_of_le {before len : Nat} (h : len ≤ 2 ^ 32 - 64) : ¬ Wraps before len := by
  unfold Wraps
  omega

/-- From the beginning of a block on the loop always stops. -/
theorem not_wraps_of_dvd {before len : Nat} (hbefore : 64 ∣ before) (h : len < 2 ^ 32) :
    ¬ Wraps before len := by
  unfold Wraps
  omega

end Update

/-! ## The digest of a message -/

/-- What is appended to a message of `n` bytes. -/
def padding (n : Nat) : List Byte :=
  0x80 :: List.replicate ((119 - n % 64) % 64) 0 ++
    bytes [UInt32.ofNat (8 * n), UInt32.ofNat (8 * n / 2 ^ 32)]

/-- The digest: the padded message, block by block. -/
def digest (message : List Byte) : List Byte :=
  let s := absorb 64 md5Transform initialState (message ++ padding message.length)
  bytes [s.a, s.b, s.c, s.d]

/-- The digest as `MD5End` writes it. -/
def digestText (message : List Byte) : List Byte := (digest message).flatMap hexByte ++ [0]

section Final

variable {context : MD5_CTX} {message : List Byte}

theorem take_PADDING {k : Nat} (h : k ≤ 63) :
    PADDING.take (k + 1) = 0x80 :: List.replicate k 0 := by
  unfold PADDING
  rw [List.take_succ_cons, List.take_replicate, Nat.min_eq_left h]

/-- `padLen`. -/
theorem toNat_padLen {idx : UInt32} (h : idx.toNat < 64) :
    (if idx < 56 then 56 - idx else 120 - idx).toNat = (119 - idx.toNat) % 64 + 1 := by
  have h56 : (56 : UInt32).toNat = 56 := rfl
  have h120 : (120 : UInt32).toNat = 120 := rfl
  split
  · rename_i hlt
    have hlt := UInt32.lt_iff_toNat_lt.mp hlt
    rw [UInt32.toNat_sub, h56]
    omega
  · rename_i hlt
    have hlt := mt UInt32.lt_iff_toNat_lt.mpr hlt
    rw [UInt32.toNat_sub, h120]
    omega

theorem md5Pad_eq (h : Absorbed context message) :
    ∃ context', md5Pad context = some context' ∧
      Absorbed context' (message ++ padding message.length) := by
  have hlen : context.idx.toNat < 64 := by
    rw [h.toNat_idx]
    exact Nat.mod_lt _ (by decide)
  have hpad : PADDING.take (if context.idx < 56 then 56 - context.idx else 120 - context.idx).toNat
      = 0x80 :: List.replicate ((119 - message.length % 64) % 64) 0 := by
    rw [toNat_padLen hlen, h.toNat_idx]
    exact take_PADDING (Nat.le_of_lt_succ (Nat.mod_lt _ (by decide)))
  obtain ⟨context₁, hfirst, habsorbed₁⟩ := (md5Update_eq h
    ⟨PADDING.take (if context.idx < 56 then 56 - context.idx else 120 - context.idx).toNat,
      length_take_PADDING _⟩).2
    (not_wraps_of_le (Nat.le_trans (List.length_take_le' _ PADDING) (by decide)))
  obtain ⟨context₂, hsecond, habsorbed₂⟩ := (md5Update_eq habsorbed₁
    (encodeCount context.count0 context.count1)).2
    (not_wraps_of_le (Nat.le_trans (Nat.le_of_eq (length_bytes _)) (by decide : 4 * 2 ≤ _)))
  refine ⟨context₂, ?_, ?_⟩
  · unfold md5Pad
    dsimp only
    rw [hfirst, Option.bind_some, hsecond]
  · have hwhole : message ++ padding message.length =
        (message ++ PADDING.take
          (if context.idx < 56 then 56 - context.idx else 120 - context.idx).toNat) ++
        (encodeCount context.count0 context.count1).bytes := by
      rw [hpad, List.append_assoc, h.count0, h.count1]
      rfl
    rw [hwhole]
    exact habsorbed₂

theorem md5End_eq (h : Absorbed context message) (buf mem : Bool) :
    md5End context buf mem = some (if buf ∨ mem then some (digestText message) else none) := by
  obtain ⟨context', hpad, habsorbed⟩ := md5Pad_eq h
  unfold md5End
  by_cases hroom : buf = true ∨ mem = true
  · have hnot : ¬ (¬ buf = true ∧ ¬ mem = true) := fun hno => hroom.elim hno.1 hno.2
    rw [if_neg hnot, if_pos hroom]
    unfold md5Final
    rw [hpad, Option.map_some, Option.map_some, habsorbed.state]
    rfl
  · rw [if_pos (not_or.mp hroom), if_neg hroom]

end Final

/-! ## A message in pieces -/

/-- No piece makes the loop wrap around, after this many bytes. -/
def NoneWraps : Nat → List Bytes → Prop
  | _, [] => True
  | n, input :: inputs =>
      ¬ Wraps n input.bytes.length ∧ NoneWraps (n + input.bytes.length) inputs

theorem md5Updates_eq {context : MD5_CTX} {message : List Byte} (h : Absorbed context message)
    (inputs : List Bytes) :
    (NoneWraps message.length inputs →
      ∃ context', inputs.foldlM md5Update context = some context' ∧
        Absorbed context' (message ++ inputs.flatMap Bytes.bytes)) ∧
    (¬ NoneWraps message.length inputs → inputs.foldlM md5Update context = none) := by
  induction inputs generalizing context message with
  | nil =>
      refine ⟨fun _ => ⟨context, rfl, ?_⟩, fun hnot => absurd trivial hnot⟩
      rw [List.flatMap_nil, List.append_nil]
      exact h
  | cons input inputs ih =>
      obtain ⟨hbad, hgood⟩ := md5Update_eq h input
      by_cases hwraps : Wraps message.length input.bytes.length
      · refine ⟨fun hnone => absurd hwraps hnone.1, fun _ => ?_⟩
        rw [List.foldlM_cons, hbad hwraps]
        rfl
      · obtain ⟨context', hupdate, habsorbed⟩ := hgood hwraps
        have hrest := ih habsorbed
        rw [List.length_append, List.append_assoc] at hrest
        rw [List.foldlM_cons, hupdate, List.flatMap_cons]
        constructor
        · intro hnone
          exact hrest.1 hnone.2
        · intro hnot
          exact hrest.2 fun hnone => hnot ⟨hwraps, hnone⟩

/--
**The digest does not depend on how the message is cut.**

Any sequence of updates ends with the text of the digest of all their bytes, or it has
a piece at which the loop runs over the end. `MD5Data`, with its one piece, has none.
-/
theorem md5_pieces {context : MD5_CTX} (h : context.buffer.length = 64) (inputs : List Bytes)
    (data : Bytes) (buf mem : Bool) :
    (NoneWraps 0 inputs →
      ((inputs.foldlM md5Update (md5Init context)).bind fun context => md5End context buf mem) =
        some (if buf ∨ mem then some (digestText (inputs.flatMap Bytes.bytes)) else none)) ∧
    (¬ NoneWraps 0 inputs →
      ((inputs.foldlM md5Update (md5Init context)).bind fun context => md5End context buf mem) =
        none) ∧
    md5Data context data buf mem =
      some (if buf ∨ mem then some (digestText data.bytes) else none) := by
  have hinit := md5Init_absorbed h
  obtain ⟨hgood, hbad⟩ := md5Updates_eq hinit inputs
  refine ⟨?_, ?_, ?_⟩
  · intro hnone
    obtain ⟨context', hupdates, habsorbed⟩ := hgood hnone
    rw [hupdates, Option.bind_some, md5End_eq habsorbed]
    rfl
  · intro hnot
    rw [hbad hnot, Option.bind_none]
  · obtain ⟨context', hupdate, habsorbed⟩ := (md5Update_eq hinit data).2
      (not_wraps_of_dvd (Nat.dvd_zero 64) data.length_lt)
    unfold md5Data
    rw [hupdate, Option.bind_some, md5End_eq habsorbed]
    rfl

/-- A context on the stack. -/
def MD5_CTX.fresh : MD5_CTX := ⟨initialState, 0, 0, newBuffer 64⟩

theorem md5_pieces_abc :
    (([⟨text "a", by decide⟩, ⟨text "bc", by decide⟩].foldlM md5Update (md5Init .fresh)).bind
      fun context => md5End context true true) =
        some (some (digestText (text "abc"))) :=
  (md5_pieces (newBuffer_length 64) [⟨text "a", by decide⟩, ⟨text "bc", by decide⟩] .null true
    true).1 ⟨not_wraps_of_le (by decide), not_wraps_of_le (by decide), trivial⟩

example : digestText (text "abc") = text "900150983cd24fb0d6963f7d28e17f72" ++ [0] := by
  decide +kernel

end NanomsgDemo.Utils.Md5

import NanomsgDemo.Net.CacheQueue

/-!
# The packet header

`libnet/NetHead.h`: fourteen bytes, packed, in the byte order of the machine
(little-endian on every platform the project is built for).

`NetPackage`, the class that puts a header in front of a message and takes it off
again, has no file in the tree. It is a parameter, with what `SocketCore` relies
on as `NetPackage.Documented`.
-/

namespace NanomsgDemo.Net

/-- The number that some bytes hold, least significant byte first. -/
def leNat : List Byte → Nat
  | [] => 0
  | b :: bs => b.toNat + 256 * leNat bs

/-- The `k` low bytes of a number, least significant byte first. -/
def leBytes : Nat → Nat → List Byte
  | 0, _ => []
  | k + 1, n => UInt8.ofNat n :: leBytes k (n / 256)

/-- `tagNetHead`. -/
structure NetHead where
  size : Int32
  v : UInt16
  cmd : Int32
  ctime : UInt32
  deriving DecidableEq, Repr

/-- `C_NETHEAD_SIZE`, the size of the packed header. -/
def C_NETHEAD_SIZE : Int32 := 14

/-- `__make_package_version`. -/
def makePackageVersion (major minor : UInt8) : UInt16 :=
  (major.toUInt16 <<< 8) ||| minor.toUInt16

namespace NetHead

/-- The header its constructor makes. -/
def init : NetHead := ⟨0, makePackageVersion 1 1, 0, 0⟩

/-- `hd->size`, read through a pointer to the bytes. -/
def sizeAt (l : List Byte) : Int32 := int32 (leNat (l.take 4))

/-- The header that fourteen bytes hold. -/
def ofBytes (l : List Byte) : NetHead where
  size := sizeAt l
  v := UInt16.ofNat (leNat ((l.drop 4).take 2))
  cmd := int32 (leNat ((l.drop 6).take 4))
  ctime := UInt32.ofNat (leNat ((l.drop 10).take 4))

/-- The fourteen bytes of a header. -/
def toBytes (h : NetHead) : List Byte :=
  leBytes 4 h.size.toUInt32.toNat ++ leBytes 2 h.v.toNat ++
    leBytes 4 h.cmd.toUInt32.toNat ++ leBytes 4 h.ctime.toNat

end NetHead

/-- `NetPackage` as `SocketCore` uses it. -/
structure NetPackage where
  /-- `NetPackage(cmd, object, objectSize)` made at the given time: the bytes of `getBuf()`. -/
  pack : UInt32 → Int32 → List Byte → List Byte
  /-- `NetPackage(head)` and `setMessage(buf, len)`: `getHead()->cmd`, and what `getBuf()` holds. -/
  unpack : NetHead → List Byte → Int32 × List Byte

/-- What `SocketCore` relies on. -/
structure NetPackage.Documented (np : NetPackage) : Prop where
  /-- A packed header with the total size and the command, then the object. -/
  pack : ∀ now cmd object, 14 + object.length < 2 ^ 31 →
    ∃ hd : NetHead, hd.size = int32 (14 + object.length) ∧ hd.cmd = cmd ∧
      np.pack now cmd object = hd.toBytes ++ object
  /-- The command of the header, and the message as it was set. -/
  unpack : ∀ hd buf, np.unpack hd buf = (hd.cmd, buf)

/-- A package class that does what is documented, stamping version 1.1 and the time. -/
def NetPackage.reference : NetPackage where
  pack now cmd object :=
    NetHead.toBytes { NetHead.init with size := int32 (14 + object.length), cmd, ctime := now } ++
      object
  unpack hd buf := (hd.cmd, buf)

theorem NetPackage.reference_documented : NetPackage.reference.Documented where
  pack _ _ _ _ := ⟨_, rfl, rfl, rfl⟩
  unpack _ _ := rfl

/-! ## The header's bytes and back -/

@[simp] theorem leBytes_length (k n : Nat) : (leBytes k n).length = k := by
  induction k generalizing n with
  | zero => rfl
  | succ k ih => simp [leBytes, ih]

theorem leNat_leBytes (k n : Nat) : leNat (leBytes k n) = n % 256 ^ k := by
  induction k generalizing n with
  | zero => simp [leBytes, leNat, Nat.mod_one]
  | succ k ih =>
      simp only [leBytes, leNat, ih]
      rw [Nat.pow_succ', Nat.mod_mul]
      simp

@[simp] theorem NetHead.toBytes_length (h : NetHead) : h.toBytes.length = 14 := by
  simp [NetHead.toBytes]

theorem int32_toUInt32 (x : Int32) : int32 (x.toUInt32.toNat % 256 ^ 4) = x := by
  have hlt : x.toUInt32.toNat < 256 ^ 4 := x.toUInt32.toNat_lt
  rw [Nat.mod_eq_of_lt hlt]
  unfold int32
  apply Int32.toBitVec_inj.mp
  simp

/-- **The header survives the wire.** -/
theorem NetHead.ofBytes_toBytes (h : NetHead) (r : List Byte) :
    NetHead.ofBytes (h.toBytes ++ r) = h := by
  -- how the fields of four and of two bytes come off the front
  have h4 : ∀ (n : Nat) (l : List Byte), (leBytes 4 n ++ l).take 4 = leBytes 4 n := fun n l => by
    rw [List.take_append_of_le_length (by simp), List.take_of_length_le (by simp)]
  have hd4 : ∀ (n : Nat) (l : List Byte), (leBytes 4 n ++ l).drop 4 = l := fun n l => by
    rw [List.drop_append_of_le_length (by simp), List.drop_of_length_le (by simp), List.nil_append]
  have h2 : ∀ (n : Nat) (l : List Byte), (leBytes 2 n ++ l).take 2 = leBytes 2 n := fun n l => by
    rw [List.take_append_of_le_length (by simp), List.take_of_length_le (by simp)]
  have hd2 : ∀ (n : Nat) (l : List Byte), (leBytes 2 n ++ l).drop 2 = l := fun n l => by
    rw [List.drop_append_of_le_length (by simp), List.drop_of_length_le (by simp), List.nil_append]
  -- the later fields, as what is left when the earlier ones are taken off
  have e6 : ∀ l : List Byte, l.drop 6 = (l.drop 4).drop 2 := fun l => by rw [List.drop_drop]
  have e10 : ∀ l : List Byte, l.drop 10 = ((l.drop 4).drop 2).drop 4 := fun l => by
    rw [List.drop_drop, List.drop_drop]
  have hv : h.v.toNat % 256 ^ 2 = h.v.toNat := Nat.mod_eq_of_lt h.v.toNat_lt
  have ht : h.ctime.toNat % 256 ^ 4 = h.ctime.toNat := Nat.mod_eq_of_lt h.ctime.toNat_lt
  unfold NetHead.ofBytes NetHead.sizeAt NetHead.toBytes
  simp only [List.append_assoc, e6, e10, h4, hd4, h2, hd2, leNat_leBytes, int32_toUInt32, hv, ht,
    UInt16.ofNat_toNat, UInt32.ofNat_toNat]

/-- Reading the size needs the first four bytes only. -/
theorem NetHead.sizeAt_append {l : List Byte} (h : 14 ≤ l.length) (r : List Byte) :
    NetHead.sizeAt (l ++ r) = NetHead.sizeAt l := by
  unfold NetHead.sizeAt
  rw [List.take_append_of_le_length (by omega)]

theorem NetHead.ofBytes_append {l : List Byte} (h : 14 ≤ l.length) (r : List Byte) :
    NetHead.ofBytes (l ++ r) = NetHead.ofBytes l := by
  unfold NetHead.ofBytes
  rw [NetHead.sizeAt_append h]
  simp only [List.drop_append_of_le_length (show 4 ≤ l.length by omega),
    List.drop_append_of_le_length (show 6 ≤ l.length by omega),
    List.drop_append_of_le_length (show 10 ≤ l.length by omega)]
  rw [List.take_append_of_le_length (by rw [List.length_drop]; omega),
    List.take_append_of_le_length (by rw [List.length_drop]; omega),
    List.take_append_of_le_length (by rw [List.length_drop]; omega)]

end NanomsgDemo.Net

import NanomsgDemo.Lib.Buffers
import NanomsgDemo.Net.ManagerT
import NanomsgDemo.Platform.Users

/-!
# Access by position

The `operator[]` of `Users` and the one of `ManagerT` are the same function over
their `_live`. It walks along the list with a counter `j` beside the iterator, but
nothing in the loop moves `j`: position `0` is found, and no other.
-/

namespace NanomsgDemo.Platform

open Net Buffers

/-- The loop of the `operator[]`s from an iterator on. Only the iterator is advanced. -/
def positionLoop (i j : Int32) : List Nat → Ptr
  | [] => none
  | a :: rest => if j = i then some a else positionLoop i j rest

/-- What the `operator[]`s do with `_live`. -/
def elementAt (live : List Nat) (i : Int32) : Ptr :=
  if i < 0 ∨ sizeT i > live.length then none else positionLoop i 0 live

/-- `Users::operator[]`. -/
def Users.operatorIndex (u : Users) (i : Int32) : Ptr := elementAt u.live i

/-- `ManagerT::operator[]`. -/
def managerIndex (m : ManagerT) (i : Int32) : Ptr := elementAt m.live i

/-- The positions from `0` to `size - 1`, as the `int`s that are asked for. -/
def positions (live : List Nat) : List Int32 := (List.range live.length).map int32

variable {live : List Nat} {i : Int32}

theorem positionLoop_eq (i j : Int32) (live : List Nat) :
    positionLoop i j live = if j = i then live.head? else none := by
  induction live with
  | nil => simp [positionLoop]
  | cons a rest ih =>
      rw [positionLoop, ih]
      split <;> rfl

theorem elementAt_eq (live : List Nat) (i : Int32) :
    elementAt live i = if i = 0 then live.head? else none := by
  unfold elementAt
  split
  · rename_i hguard
    have hne : i ≠ 0 := by
      intro hi
      subst hi
      rcases hguard with h | h
      · exact absurd h (by decide)
      · exact absurd h (Nat.not_lt_zero _)
    rw [if_neg hne]
  · rw [positionLoop_eq]
    simp only [eq_comm]

theorem elementAt_iff (live : List Nat) (i : Int32) :
    elementAt live i = load live i.toInt ↔ i ≤ 0 ∨ live.length ≤ i.toInt := by
  have hzero : i = 0 ↔ i.toInt = 0 := Int32.toInt_inj.symm
  have hle : i ≤ 0 ↔ i.toInt ≤ 0 := int32_le_iff
  rw [elementAt_eq, hle]
  by_cases hi : i = 0
  · have htoInt := hzero.mp hi
    rw [if_pos hi, htoInt]
    simp [load, List.head?_eq_getElem?]
  · -- at any other position null is returned, which is right outside of the list
    have hne : i.toInt ≠ 0 := fun h => hi (hzero.mpr h)
    rw [if_neg hi, eq_comm, load_eq_none_iff]
    omega

theorem map_elementAt_positions_iff (live : List Nat) :
    (positions live).map (elementAt live) = live.map some ↔ live.length ≤ 1 := by
  match live with
  | [] => simp [positions]
  | [a] => simp [positions, elementAt_eq, int32]
  | a :: b :: rest =>
      have hsecond : elementAt (a :: b :: rest) (int32 1) = none := by
        rw [elementAt_eq, if_neg (by decide)]
      have hlen : ¬ (a :: b :: rest).length ≤ 1 := by simp
      refine iff_of_false ?_ hlen
      intro h
      have hone := congrArg (fun l => l[1]?) h
      simp [positions, hsecond] at hone

/--
**Where access by position is right.**

The element asked for is returned, or null outside of the list, exactly at position
`0` and outside of the list; so asking for all positions visits every element only if
there is at most one.
-/
theorem operatorIndex_iff (u : Users) (m : ManagerT) :
    (∀ i, u.operatorIndex i = load u.live i.toInt ↔ i ≤ 0 ∨ u.live.length ≤ i.toInt) ∧
    (∀ i, managerIndex m i = load m.live i.toInt ↔ i ≤ 0 ∨ m.live.length ≤ i.toInt) ∧
    ((positions u.live).map u.operatorIndex = u.live.map some ↔ u.live.length ≤ 1) ∧
    ((positions m.live).map (managerIndex m) = m.live.map some ↔ m.live.length ≤ 1) :=
  ⟨elementAt_iff u.live, elementAt_iff m.live, map_elementAt_positions_iff u.live,
    map_elementAt_positions_iff m.live⟩

/-- Two entries each: the second is not found. -/
theorem not_operatorIndex :
    let u := ((Users.init.add .above { uid := 1 } none).1.add .above { uid := 2 } none).1
    let m := ((⟨[]⟩ : ManagerT).add 0).1.add 1
    (load u.live 1 = some 1 ∧ u.operatorIndex 1 = none) ∧
      load m.1.live 1 = some 1 ∧ managerIndex m.1 1 = none := by decide

end NanomsgDemo.Platform

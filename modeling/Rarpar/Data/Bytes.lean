import Mathlib.Algebra.GroupWithZero.Nat
import Mathlib.Data.List.GetD
import Mathlib.Data.Vector.Defs

namespace Rarpar.Bytes
open List hiding Vector

/-! Little-endian numbers and arrays of fixed size in byte strings. -/

/-- The number these bytes spell, the lowest first. -/
def leNat : List UInt8 → Nat
  | [] => 0
  | byte :: rest => byte.toNat + 256 * leNat rest

/-- The lowest `width` bytes of a number. -/
def leBytes : (width n : Nat) → List UInt8
  | 0, _ => []
  | width + 1, n => UInt8.ofNat n :: leBytes width (n / 256)

/-- An array read at an offset. -/
def array (size : Nat) (data : List UInt8) (offset : Nat) : Vector UInt8 size :=
  Vector.ofFn fun j => data.getD (offset + j.val) 0

@[simp] theorem length_leBytes (width n : Nat) : (leBytes width n).length = width := by
  induction width generalizing n with
  | zero => rfl
  | succ width ih => rw [leBytes, length_cons, ih]

theorem leNat_lt (bytes : List UInt8) : leNat bytes < 256 ^ bytes.length := by
  induction bytes with
  | nil => exact Nat.one_pos
  | cons byte rest ih =>
    have small := byte.toNat_lt
    rw [leNat, length_cons, Nat.pow_succ]
    omega

theorem leBytes_leNat (bytes : List UInt8) : leBytes bytes.length (leNat bytes) = bytes := by
  induction bytes with
  | nil => rfl
  | cons byte rest ih =>
    have small := byte.toNat_lt
    have high : (byte.toNat + 256 * leNat rest) / 256 = leNat rest := by omega
    have low : UInt8.ofNat (byte.toNat + 256 * leNat rest) = byte := by
      apply UInt8.toNat_inj.mp
      rw [UInt8.toNat_ofNat']
      omega
    rw [length_cons, leNat, leBytes, high, low, ih]

theorem leNat_leBytes {width n : Nat} (small : n < 256 ^ width) : leNat (leBytes width n) = n := by
  induction width generalizing n with
  | zero => exact (Nat.lt_one_iff.mp small).symm
  | succ width ih =>
    rw [Nat.pow_succ] at small
    rw [leBytes, leNat, ih (by omega), UInt8.toNat_ofNat']
    omega

theorem take_leBytes {short width : Nat} (n : Nat) (le : short ≤ width) : (leBytes width n).take short = leBytes short n := by
  induction short generalizing width n with
  | zero => rfl
  | succ short ih =>
    obtain ⟨width, rfl⟩ := Nat.exists_eq_succ_of_ne_zero (show width ≠ 0 by omega)
    rw [leBytes, leBytes, take_succ_cons, ih _ (by omega)]

/-- Bytes that were widened to a number are its lowest ones. -/
theorem take_leBytes_leNat {bytes : List UInt8} {width : Nat} (short : bytes.length ≤ width) :
    (leBytes width (leNat bytes)).take bytes.length = bytes := by
  rw [take_leBytes _ short, leBytes_leNat]

variable {size offset : Nat} {data : List UInt8}

theorem toList_array (inside : offset + size ≤ data.length) :
    (array size data offset).toList = (data.drop offset).take size := by
  refine ext_getElem ?_ fun j first second => ?_
  · rw [Vector.length_toList, length_take, length_drop]
    omega
  · rw [Vector.length_toList] at first
    rw [Vector.getElem_toList, getElem_take, getElem_drop]
    unfold array
    rw [Vector.getElem_ofFn, getD_eq_getElem _ _ (by omega)]

/-- An array from bytes of its size. -/
theorem toList_array_zero (length : data.length = size) : (array size data 0).toList = data := by
  rw [toList_array (by omega), drop_zero, ← length, take_length]

theorem array_take {stop : Nat} (inside : offset + size ≤ stop) :
    array size (data.take stop) offset = array size data offset := by
  refine Vector.ext fun j small => ?_
  rw [array, array, Vector.getElem_ofFn, Vector.getElem_ofFn]
  simp only [getD_eq_getElem?_getD]
  rw [getElem?_take_of_lt (by omega)]

/-- The part of a string between a front and a back. -/
theorem take_drop_middle {front middle back : List UInt8} (before : front.length = offset)
    (length : middle.length = size) : ((front ++ (middle ++ back)).drop offset).take size = middle := by
  rw [drop_left' before, take_left' length]

theorem array_middle {front back : List UInt8} {middle : Vector UInt8 size} (before : front.length = offset) :
    array size (front ++ (middle.toList ++ back)) offset = middle := by
  have inside : offset + size ≤ (front ++ (middle.toList ++ back)).length := by
    rw [length_append, length_append, Vector.length_toList]
    omega
  refine Vector.toList_inj.mp ?_
  rw [toList_array inside, take_drop_middle before Vector.length_toList]

end Rarpar.Bytes

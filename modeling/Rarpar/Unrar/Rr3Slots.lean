import Rarpar.Unrar.Rr3Pass
import Mathlib.Data.List.Induction
import Mathlib.Data.List.Perm.Basic

namespace Rarpar.Unrar.Rr3
open List Function

/-! ### Sums of sectors -/

namespace Sector

theorem xor_comm (a b : Sector) : a.xor b = b.xor a := by
  refine Vector.ext fun j small => ?_
  simp only [xor, Vector.getElem_zipWith]
  exact UInt8.xor_comm _ _

theorem xor_assoc (a b c : Sector) : (a.xor b).xor c = a.xor (b.xor c) := by
  refine Vector.ext fun j small => ?_
  simp only [xor, Vector.getElem_zipWith]
  exact UInt8.xor_assoc _ _ _

theorem xor_self (a : Sector) : a.xor a = zero := by
  refine Vector.ext fun j small => ?_
  simp only [xor, zero, Vector.getElem_zipWith, Vector.getElem_replicate]
  exact UInt8.xor_self

theorem xor_zero (a : Sector) : a.xor zero = a := by
  refine Vector.ext fun j small => ?_
  simp only [xor, zero, Vector.getElem_zipWith, Vector.getElem_replicate]
  exact UInt8.xor_zero

theorem xor_xor_cancel (a b : Sector) : a.xor (a.xor b) = b := by
  rw [← xor_assoc, xor_self, xor_comm, xor_zero]

end Sector

/-- The sum of these sectors. -/
def sumOf (sector : Nat → Sector) (indices : List Nat) : Sector :=
  indices.foldl (fun acc index => acc.xor (sector index)) .zero

theorem sumOf_concat (sector : Nat → Sector) (indices : List Nat) (index : Nat) :
    sumOf sector (indices ++ [index]) = (sumOf sector indices).xor (sector index) := by
  rw [sumOf, sumOf, foldl_concat]

theorem sumOf_congr {sector sector' : Nat → Sector} {indices : List Nat} (same : ∀ index ∈ indices, sector' index = sector index) :
    sumOf sector' indices = sumOf sector indices :=
  foldl_ext _ _ _ fun acc index member => congrArg acc.xor (same index member)

theorem sumOf_perm {sector : Nat → Sector} {indices indices' : List Nat} (perm : indices.Perm indices') :
    sumOf sector indices = sumOf sector indices' := by
  have commutes : RightCommutative fun (acc : Sector) index => acc.xor (sector index) := ⟨fun acc i j => by
    rw [Sector.xor_assoc, Sector.xor_comm (sector i), ← Sector.xor_assoc]⟩
  exact perm.foldl_eq _

/-! ### One slot -/

section Slot
variable (volume : List UInt8) (record : Record)

def passes (index : Nat) : Bool := sectorChecksum (sectorOf volume record index) = storedOf volume record index

/-- The sectors that fold into a slot. -/
def inSlot (slot : Nat) : List Nat := (List.range record.sectors).filter fun index => index % record.slots = slot

/-- Those of them that fail their checksum. -/
def failing (slot : Nat) : List Nat := (inSlot record slot).filter fun index => !passes volume record index

/-- The sum of the sectors of a slot that pass. -/
def intactSum (slot : Nat) : Sector := sumOf (sectorOf volume record) ((inSlot record slot).filter (passes volume record))

/-- What a pass that met these failing sectors knows. -/
def stateOf : List Nat → Slot
  | [] => .clean
  | [index] => .one index (storedOf volume record index) (sectorOf volume record index)
  | _ :: _ :: _ => .many

theorem stateOf_concat (indices : List Nat) (index : Nat) : stateOf volume record (indices ++ [index]) =
    match stateOf volume record indices with
    | .clean => .one index (storedOf volume record index) (sectorOf volume record index)
    | _ => .many := by
  rcases indices with _ | ⟨first, _ | ⟨second, rest⟩⟩ <;> rfl

theorem stateOf_eq_many {indices : List Nat} : stateOf volume record indices = .many ↔ 2 ≤ indices.length := by
  rcases indices with _ | ⟨first, _ | ⟨second, rest⟩⟩ <;> simp [stateOf]

/-- A pass that has visited these sectors. -/
structure Knows (slotOf : Nat → Nat) (visited : List Nat) (pass : Pass) : Prop where
  acc : ∀ slot, pass.acc slot = sumOf (sectorOf volume record)
    ((visited.filter fun index => slotOf index = slot).filter (passes volume record))
  state : ∀ slot, pass.state slot = stateOf volume record
    ((visited.filter fun index => slotOf index = slot).filter fun index => !passes volume record index)
  damaged : pass.damaged = visited.filter fun index => !passes volume record index

variable {volume record}

theorem Knows.visit {slotOf : Nat → Nat} {visited : List Nat} {pass : Pass} (knows : Knows volume record slotOf visited pass)
    (index : Nat) : Knows volume record slotOf (visited ++ [index])
      (pass.visit slotOf index (sectorOf volume record index) (storedOf volume record index)) := by
  unfold Pass.visit
  by_cases right : sectorChecksum (sectorOf volume record index) = storedOf volume record index
  · have passing : passes volume record index = true := decide_eq_true right
    rw [if_pos right]
    refine ⟨fun slot => ?_, fun slot => ?_, ?_⟩
    · by_cases same : slot = slotOf index
      · simp [same, passing, knows.acc, sumOf_concat]
      · simp [same, Ne.symm same, knows.acc]
    · by_cases same : slotOf index = slot <;> simp [same, passing, knows.state]
    · simp [passing, knows.damaged]
  · have failing : passes volume record index = false := decide_eq_false right
    rw [if_neg right]
    refine ⟨fun slot => ?_, fun slot => ?_, ?_⟩
    · by_cases same : slotOf index = slot <;> simp [same, failing, knows.acc]
    · by_cases same : slot = slotOf index
      · simp [same, failing, knows.state, stateOf_concat] <;> rfl
      · simp [same, Ne.symm same, knows.state]
    · simp [failing, knows.damaged]

theorem knows_scan (slotOf : Nat → Nat) (visited : List Nat) :
    Knows volume record slotOf visited (scan volume record (Pass.visit slotOf) visited .new) := by
  induction visited using reverseRecOn with
  | nil => exact ⟨fun _ => rfl, fun _ => rfl, rfl⟩
  | append_singleton visited index ih =>
    rw [scan, foldl_concat]
    exact ih.visit index

end Slot

end Rarpar.Unrar.Rr3

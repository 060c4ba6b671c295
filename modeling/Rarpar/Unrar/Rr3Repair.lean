import Rarpar.Unrar.Rr3Windows

namespace Rarpar.Unrar.Rr3
open Examination List

/-! ### What a slot can hold -/

section Slots
variable (volume : List UInt8) (record : Record)

/-- The one sector of a slot that its parity and the others leave possible. -/
def rebuilt (slot : Nat) : Sector := (intactSum volume record slot).xor (parityOf volume record slot)

/-- The slot has one failing sector, and its parity gives another one with the stored checksum. -/
structure Rebuilds (slot index : Nat) : Prop where
  failing : failing volume record slot = [index]
  differs : rebuilt volume record slot ≠ sectorOf volume record index
  right : sectorChecksum (rebuilt volume record slot) = storedOf volume record index

/-- The protected bytes of a rebuilt sector. -/
def patchOf (slot index : Nat) : RecoveryRecordPatch :=
  ⟨index, (record.sectorRange index).1,
    (rebuilt volume record slot).toList.take ((record.sectorRange index).2 - (record.sectorRange index).1)⟩

/-- A rebuilt sector as the patched volume holds it: only its protected bytes, with zeros behind them. -/
def trimmed (slot index : Nat) : Sector := Vector.ofFn fun j =>
  if index * sectorLen + j.val < record.headerOffset then (rebuilt volume record slot)[j] else 0

variable {volume record} {rebuild : Bool} {slot index : Nat}

theorem slotFindings_clean (none : failing volume record slot = []) : slotFindings volume record rebuild slot =
    ⟨⟨record.layout, [], [], if intactSum volume record slot ≠ parityOf volume record slot then [slot] else [], [], 0⟩, []⟩ := by
  simp only [slotFindings, settled, crowded, none, stateOf, Record.settle]
  split <;> rfl

theorem slotFindings_one (one : failing volume record slot = [index]) : slotFindings volume record rebuild slot =
    if rebuilt volume record slot = sectorOf volume record index then ⟨⟨record.layout, [], [], [], [index], 0⟩, []⟩
    else if sectorChecksum (rebuilt volume record slot) ≠ storedOf volume record index then
      ⟨⟨record.layout, [index], [index], [], [], 0⟩, []⟩
    else ⟨⟨record.layout, [index], [], [], [], 0⟩, if rebuild then [patchOf volume record slot index] else []⟩ := by
  have few : ¬ 2 ≤ [index].length := Nat.not_succ_le_self 1
  simp only [slotFindings, settled, crowded, one, if_neg few, stateOf, Record.settle, patchOf]
  change Examination.add (if rebuilt volume record slot = _ then _ else
    if sectorChecksum (rebuilt volume record slot) ≠ _ then _ else _) _ = _
  split_ifs <;> rfl

theorem Rebuilds.slotFindings (rebuilds : Rebuilds volume record slot index) : slotFindings volume record rebuild slot =
    ⟨⟨record.layout, [index], [], [], [], 0⟩, if rebuild then [patchOf volume record slot index] else []⟩ := by
  rw [slotFindings_one rebuilds.failing, if_neg rebuilds.differs, if_neg (not_not.mpr rebuilds.right)]

theorem slotFindings_crowded (many : 2 ≤ (failing volume record slot).length) : slotFindings volume record rebuild slot =
    ⟨⟨record.layout, failing volume record slot, failing volume record slot, [], [], 0⟩, []⟩ := by
  simp only [slotFindings, settled, crowded, if_pos many, (stateOf_eq_many volume record).mpr many, Record.settle]
  rfl

/-- What the examination of a slot comes to. -/
inductive Verdict (volume : List UInt8) (record : Record) (rebuild : Bool) (slot : Nat) : Examination → Prop
  | clean (none : failing volume record slot = []) : Verdict volume record rebuild slot
      ⟨⟨record.layout, [], [], if intactSum volume record slot ≠ parityOf volume record slot then [slot] else [], [], 0⟩, []⟩
  | checksum {index : Nat} (one : failing volume record slot = [index])
      (same : rebuilt volume record slot = sectorOf volume record index) :
      Verdict volume record rebuild slot ⟨⟨record.layout, [], [], [], [index], 0⟩, []⟩
  | rebuilds {index : Nat} (rebuilds : Rebuilds volume record slot index) : Verdict volume record rebuild slot
      ⟨⟨record.layout, [index], [], [], [], 0⟩, if rebuild then [patchOf volume record slot index] else []⟩
  | lost (some : failing volume record slot ≠ []) : Verdict volume record rebuild slot
      ⟨⟨record.layout, failing volume record slot, failing volume record slot, [], [], 0⟩, []⟩

section
variable (volume : List UInt8) (record : Record) (rebuild : Bool) (slot : Nat)

theorem slotFindings_verdict :
    Verdict volume record rebuild slot (slotFindings volume record rebuild slot) := by
  rcases found : failing volume record slot with _ | ⟨index, _ | ⟨next, rest⟩⟩
  · rw [slotFindings_clean found]
    exact .clean found
  · rw [slotFindings_one found]
    split
    · exact .checksum found ‹_›
    · split
      · rw [← found]
        exact .lost (found ▸ cons_ne_nil _ _)
      · exact .rebuilds ⟨found, ‹_›, not_not.mp ‹_›⟩
  · have many : 2 ≤ (failing volume record slot).length := by
      rw [found]
      exact Nat.le_add_left 2 rest.length
    rw [slotFindings_crowded many]
    exact .lost (found ▸ cons_ne_nil _ _)

/-- Patches are what slots rebuild. -/
theorem patches_slotFindings :
    (slotFindings volume record rebuild slot).patches = [] ∨
      ∃ index, Rebuilds volume record slot index ∧
        (slotFindings volume record rebuild slot).patches = [patchOf volume record slot index] := by
  have verdict := slotFindings_verdict volume record rebuild slot
  generalize slotFindings volume record rebuild slot = findings at verdict
  cases verdict with
  | clean | checksum | lost => exact .inl rfl
  | @rebuilds index rebuilds =>
    cases rebuild with
    | false => exact .inl rfl
    | true => exact .inr ⟨index, rebuilds, rfl⟩

end

theorem mem_slot_patches {patch : RecoveryRecordPatch} (member : patch ∈ (slotFindings volume record rebuild slot).patches) :
    ∃ index, Rebuilds volume record slot index ∧ patch = patchOf volume record slot index := by
  rcases patches_slotFindings volume record rebuild slot with none | ⟨index, rebuilds, one⟩
  · rw [none] at member
    cases member
  · grind

theorem mem_failing : index ∈ failing volume record slot ↔
    index < record.sectors ∧ index % record.slots = slot ∧ passes volume record index = false := by
  rw [failing, inSlot, mem_filter, mem_filter, mem_range, decide_eq_true_eq, Bool.not_eq_true', and_assoc]

theorem Rebuilds.inside (rebuilds : Rebuilds volume record slot index) : index < record.sectors ∧ index % record.slots = slot := by
  have member := mem_failing.mp (rebuilds.failing ▸ mem_singleton_self index)
  exact ⟨member.1, member.2.1⟩

section
variable (volume : List UInt8) (record : Record) (slot index : Nat)

theorem length_patchOf :
    (patchOf volume record slot index).bytes.length = min ((index + 1) * 512) record.headerOffset - index * 512 := by
  simp only [patchOf, Record.sectorRange, length_take, Vector.length_toList, sectorLen]
  omega

theorem offset_patchOf :
    (patchOf volume record slot index).offset = index * 512 := rfl

end

end Slots

/-! ### The patches of a whole examination -/

section Patches
variable {volume : List UInt8} {record : Record} {rebuild : Bool}

theorem mem_patches {patch : RecoveryRecordPatch}
    (member : patch ∈ (wholeFindings volume record rebuild).patches) :
    ∃ index, Rebuilds volume record (index % record.slots) index ∧
      patch = patchOf volume record (index % record.slots) index := by
  obtain ⟨slot, _, found⟩ := mem_flatMap.mp member
  obtain ⟨index, rebuilds, here⟩ := mem_slot_patches found
  obtain rfl := rebuilds.inside.2
  exact ⟨index, rebuilds, here⟩

theorem mem_patches_of_rebuilds {index : Nat} (rebuilds : Rebuilds volume record (index % record.slots) index) :
    patchOf volume record (index % record.slots) index ∈
      (wholeFindings volume record true).patches := by
  refine mem_flatMap.mpr ⟨index % record.slots, mem_range.mpr (Nat.mod_lt _ record.slots_pos), ?_⟩
  rw [rebuilds.slotFindings]
  exact mem_singleton_self _

/-- The offset of a patch tells its sector. -/
theorem patch_told {patch patch' : RecoveryRecordPatch}
    (member : patch ∈ (wholeFindings volume record rebuild).patches)
    (member' : patch' ∈ (wholeFindings volume record rebuild).patches)
    (same : patch.offset = patch'.offset) : patch = patch' := by
  obtain ⟨index, _, rfl⟩ := mem_patches member
  obtain ⟨index', _, rfl⟩ := mem_patches member'
  have here : index * 512 = index' * 512 := same
  obtain rfl : index = index' := by omega
  rfl

theorem nodup_patches (volume : List UInt8) (record : Record) (rebuild : Bool) :
    (wholeFindings volume record rebuild).patches.Nodup := by
  refine nodup_flatMap.mpr ⟨fun slot _ => ?_, ?_⟩
  · rcases patches_slotFindings volume record rebuild slot with none | ⟨index, _, one⟩
    · rw [none]
      exact nodup_nil
    · grind
  · refine nodup_range.imp fun {slot slot'} other patch member member' => other ?_
    obtain ⟨index, rebuilds, here⟩ := mem_slot_patches member
    obtain ⟨index', rebuilds', here'⟩ := mem_slot_patches member'
    have same : index = index' := congrArg RecoveryRecordPatch.unit (here.symm.trans here')
    rw [← rebuilds.inside.2, ← rebuilds'.inside.2, same]

/-- The sorted patches lie one behind the other inside the protected bytes. -/
theorem ascending_sorted (volume : List UInt8) (record : Record) (rebuild : Bool) : Ascending record.headerOffset 0
    (wholeFindings volume record rebuild).sorted.patches := by
  have ordered : (wholeFindings volume record rebuild).sorted.patches.Pairwise
      fun p q => p.offset ≤ q.offset := pairwise_insertionSort _ _
  have distinct : (wholeFindings volume record rebuild).sorted.patches.Nodup :=
    (perm_insertionSort _ _).nodup_iff.mpr (nodup_patches volume record rebuild)
  have apart {i i' : Nat} (next : i + 1 ≤ i') :
      i * 512 + (min ((i + 1) * 512) record.headerOffset - i * 512) ≤ i' * 512 := by omega
  refine ascending_of_pairwise ?_ (fun _ _ => Nat.zero_le _) fun patch member => ?_
  · refine (ordered.and distinct).imp_of_mem fun {p q} first second ⟨low, differ⟩ => ?_
    obtain ⟨index, rebuilds, rfl⟩ := mem_patches ((mem_insertionSort _).mp first)
    obtain ⟨index', _, rfl⟩ := mem_patches ((mem_insertionSort _).mp second)
    have other : index ≠ index' := by
      rintro rfl
      exact differ rfl
    rw [length_patchOf]
    exact apart (Nat.lt_of_le_of_ne (Nat.le_of_mul_le_mul_right low (by decide)) other)
  · obtain ⟨index, rebuilds, rfl⟩ := mem_patches ((mem_insertionSort _).mp member)
    have begins := Record.sector_begins rebuilds.inside.1
    rw [length_patchOf, offset_patchOf]
    omega

end Patches

/-! ### The repaired volume -/

section Repaired
variable (volume : List UInt8) (record : Record)

/-- The volume with every rebuilt sector written back. -/
def repaired : List UInt8 :=
  writeInPlace (gather record.layout (slotFindings volume record true) (List.range record.slots)).sorted.patches volume

variable {volume record} (fits : record.Fits volume.length)
include fits

theorem length_repaired : (repaired volume record).length = volume.length :=
  length_writeInPlace (ascending_sorted volume record true) (Record.protected_inside fits)

/-- Bytes outside the sectors that their slots rebuild stay. -/
theorem getD_repaired_of_apart {i : Nat} (apart : ∀ index, Rebuilds volume record (index % record.slots) index →
    index * 512 ≤ i → min ((index + 1) * 512) record.headerOffset ≤ i) : (repaired volume record).getD i 0 = volume.getD i 0 := by
  have kept := getElem?_writeInPlace_of_not (ascending_sorted volume record true) (Record.protected_inside fits)
    (i := i) fun patch member ⟨low, high⟩ => by
      obtain ⟨index, rebuilds, rfl⟩ := mem_patches ((mem_insertionSort _).mp member)
      rw [offset_patchOf] at low high
      have later := apart index rebuilds low
      rw [length_patchOf] at high
      omega
  rw [getD_eq_getElem?_getD, getD_eq_getElem?_getD]
  exact congrArg (Option.getD · 0) kept

theorem getD_repaired_of_not {index j : Nat} (small : j < 512) (not : ¬ Rebuilds volume record (index % record.slots) index) :
    (repaired volume record).getD (index * 512 + j) 0 = volume.getD (index * 512 + j) 0 := by
  refine getD_repaired_of_apart fits fun other rebuilds low => ?_
  have different : other ≠ index := fun same => not (same ▸ rebuilds)
  omega

/-- Bytes behind the protected ones stay. -/
theorem getD_repaired_behind {i : Nat} (behind : record.headerOffset ≤ i) : (repaired volume record).getD i 0 = volume.getD i 0 :=
  getD_repaired_of_apart fits fun _ _ _ => by omega

theorem getD_repaired {index j : Nat} (small : j < 512) (rebuilds : Rebuilds volume record (index % record.slots) index)
    (inside : index * 512 + j < record.headerOffset) :
    (repaired volume record).getD (index * 512 + j) 0 = (rebuilt volume record (index % record.slots))[j] := by
  have length := length_patchOf volume record (index % record.slots) index
  have start := offset_patchOf volume record (index % record.slots) index
  have written := getElem?_writeInPlace_of_mem (ascending_sorted volume record true) (Record.protected_inside fits)
    (i := index * 512 + j) ((mem_insertionSort _).mpr (mem_patches_of_rebuilds rebuilds)) (by omega)
  rw [start, Nat.add_sub_cancel_left] at written
  rw [getD_eq_getElem?_getD, repaired, written]
  dsimp only [patchOf]
  have short : j < (record.sectorRange index).2 - (record.sectorRange index).1 := by
    simp only [Record.sectorRange, sectorLen]
    omega
  rw [getElem?_take_of_lt short, Vector.getElem?_toList, Vector.getElem?_eq_getElem small]
  rfl

theorem sectorOf_repaired_of_not {index : Nat} (not : ¬ Rebuilds volume record (index % record.slots) index) :
    sectorOf (repaired volume record) record index = sectorOf volume record index := by
  refine Vector.ext fun j small => ?_
  have byte := getD_repaired_of_not fits small not
  simp only [sectorOf, Vector.getElem_ofFn, sectorLen]
  rw [byte]

theorem sectorOf_repaired {index : Nat} (rebuilds : Rebuilds volume record (index % record.slots) index) :
    sectorOf (repaired volume record) record index = trimmed volume record (index % record.slots) index := by
  refine Vector.ext fun j small => ?_
  simp only [sectorOf, trimmed, Vector.getElem_ofFn, sectorLen]
  by_cases inside : index * 512 + j < record.headerOffset
  · rw [if_pos inside, if_pos inside]
    exact getD_repaired fits small rebuilds inside
  · rw [if_neg inside, if_neg inside]

theorem storedOf_repaired (index : Nat) : storedOf (repaired volume record) record index = storedOf volume record index := by
  have before := record.header_before
  unfold storedOf Record.checksumAt
  rw [getD_repaired_behind fits (by omega), getD_repaired_behind fits (by omega)]

theorem parityOf_repaired (slot : Nat) : parityOf (repaired volume record) record slot = parityOf volume record slot := by
  have before := record.header_before
  have behind (j : Nat) : record.headerOffset ≤ record.parityAt slot + j := by
    unfold Record.parityAt
    omega
  refine Vector.ext fun j small => ?_
  simp only [parityOf, Vector.getElem_ofFn]
  exact getD_repaired_behind fits (behind j)

end Repaired

end Rarpar.Unrar.Rr3

import Rarpar.Unrar.Rr3Repair

namespace Rarpar.Unrar.Rr3
open Vector (ext getElem_ofFn)
open Examination List

/-! ### A second examination -/

theorem not_rebuilds (none : failing volume record slot = []) (index : Nat) : ¬ Rebuilds volume record slot index := by
  intro rebuilds
  have one := rebuilds.failing
  rw [none] at one
  cases one

section Again
variable {volume : List UInt8} {record : Record} {slot index : Nat}

theorem mem_inSlot : index ∈ inSlot record slot ↔ index < record.sectors ∧ index % record.slots = slot := by
  rw [inSlot, mem_filter, mem_range, decide_eq_true_eq]

/-- Trimming loses nothing if the bytes behind the protected ones are zero. -/
theorem trimmed_eq_iff (volume : List UInt8) (record : Record) (slot index : Nat) :
    trimmed volume record slot index = rebuilt volume record slot ↔
      ∀ j (small : j < 512), record.headerOffset ≤ index * 512 + j → (rebuilt volume record slot)[j] = 0 := by
  constructor
  · intro same j small behind
    rw [← same]
    simp only [trimmed, getElem_ofFn, sectorLen]
    exact if_neg (Nat.not_lt.mpr behind)
  · intro zero
    refine ext fun j small => ?_
    simp only [trimmed, getElem_ofFn, sectorLen]
    by_cases inside : index * 512 + j < record.headerOffset
    · exact if_pos inside
    · rw [if_neg inside, zero j small (Nat.le_of_not_lt inside)]

/-- Every sector but the last is protected as a whole. -/
theorem trimmed_eq_of_lt (volume : List UInt8) (slot : Nat) (before : index + 1 < record.sectors) :
    trimmed volume record slot index = rebuilt volume record slot := by
  have begins : (index + 1) * 512 < record.headerOffset := Record.sector_begins before
  have full (j : Nat) (small : j < 512) : ¬ record.headerOffset ≤ index * 512 + j := by omega
  exact (trimmed_eq_iff volume record slot index).mpr fun j small behind => absurd behind (full j small)

variable (fits : record.Fits volume.length)
include fits

theorem passes_repaired_of_not (not : ¬ Rebuilds volume record (index % record.slots) index) :
    passes (repaired volume record) record index = passes volume record index := by
  unfold passes
  rw [sectorOf_repaired_of_not fits not, storedOf_repaired fits]

/-- A slot that rebuilds nothing stays. -/
theorem slot_unchanged (not : ∀ index, ¬ Rebuilds volume record slot index) :
    failing (repaired volume record) record slot = failing volume record slot ∧
      intactSum (repaired volume record) record slot = intactSum volume record slot := by
  have here {index : Nat} (member : index ∈ inSlot record slot) : ¬ Rebuilds volume record (index % record.slots) index := by
    rw [(mem_inSlot.mp member).2]
    exact not index
  have same := filter_congr fun index member => passes_repaired_of_not fits (here member)
  refine ⟨filter_congr fun index member => by rw [passes_repaired_of_not fits (here member)], ?_⟩
  rw [intactSum, intactSum, same]
  exact sumOf_congr fun index member => sectorOf_repaired_of_not fits (here (mem_filter.mp member).1)

section Rebuilt
variable (rebuilds : Rebuilds volume record slot index)
include rebuilds

omit fits in
theorem Rebuilds.passes_of_ne {other : Nat} (member : other ∈ inSlot record slot) (ne : other ≠ index) :
    passes volume record other = true := by
  by_contra fails
  have lost : other ∈ Rr3.failing volume record slot :=
    mem_filter.mpr ⟨member, by rw [Bool.eq_false_of_not_eq_true fails]; rfl⟩
  rw [rebuilds.failing, mem_singleton] at lost
  exact ne lost

omit fits in
theorem Rebuilds.not_of_ne {other : Nat} (member : other ∈ inSlot record slot) (ne : other ≠ index) :
    ¬ Rebuilds volume record (other % record.slots) other := by
  rw [(mem_inSlot.mp member).2]
  exact fun rebuilds' => ne (singleton_inj.mp (rebuilds'.failing.symm.trans rebuilds.failing))

theorem Rebuilds.sectorOf_self : sectorOf (repaired volume record) record index = trimmed volume record slot index := by
  obtain rfl := rebuilds.inside.2
  exact sectorOf_repaired fits rebuilds

/-- The other sectors of the slot still pass and have the same sum. -/
theorem Rebuilds.sum_others : sumOf (sectorOf (repaired volume record) record) ((inSlot record slot).filter (passes volume record)) =
    intactSum volume record slot := by
  refine sumOf_congr fun other member => ?_
  obtain ⟨inside, passing⟩ := mem_filter.mp member
  refine sectorOf_repaired_of_not fits (rebuilds.not_of_ne inside ?_)
  rintro rfl
  have fails := (mem_failing.mp (rebuilds.failing ▸ mem_singleton_self other)).2.2
  rw [passing] at fails
  cases fails

theorem Rebuilds.passes_others {other : Nat} (member : other ∈ inSlot record slot) (ne : other ≠ index) :
    passes (repaired volume record) record other = true := by
  rw [passes_repaired_of_not fits (rebuilds.not_of_ne member ne), rebuilds.passes_of_ne member ne]

/-- If the trimmed sector passes, the slot is clean. -/
theorem Rebuilds.clean (right : sectorChecksum (trimmed volume record slot index) = storedOf volume record index) :
    Rr3.failing (repaired volume record) record slot = [] ∧
      intactSum (repaired volume record) record slot = (intactSum volume record slot).xor (trimmed volume record slot index) := by
  have all : ∀ other ∈ inSlot record slot, passes (repaired volume record) record other = true := by
    intro other member
    by_cases ne : other = index
    · subst ne
      unfold passes
      rw [rebuilds.sectorOf_self fits, storedOf_repaired fits]
      exact decide_eq_true right
    · exact rebuilds.passes_others fits member ne
  refine ⟨filter_eq_nil_iff.mpr fun other member => by rw [all other member]; exact Bool.false_ne_true, ?_⟩
  have parts : (inSlot record slot).Perm ((inSlot record slot).filter (passes volume record) ++ [index]) := by
    rw [← rebuilds.failing]
    exact (filter_append_perm _ _).symm
  rw [intactSum, filter_eq_self.mpr all, sumOf_perm parts, sumOf_concat, rebuilds.sum_others fits, rebuilds.sectorOf_self fits]

/-- If it does not, the slot is as damaged as before. -/
theorem Rebuilds.damaged (wrong : sectorChecksum (trimmed volume record slot index) ≠ storedOf volume record index) :
    Rr3.failing (repaired volume record) record slot = [index] ∧
      intactSum (repaired volume record) record slot = intactSum volume record slot := by
  have same : ∀ other ∈ inSlot record slot, passes (repaired volume record) record other = passes volume record other := by
    intro other member
    by_cases ne : other = index
    · subst ne
      have fails := (mem_failing.mp (rebuilds.failing ▸ mem_singleton_self other)).2.2
      rw [fails]
      unfold passes
      rw [rebuilds.sectorOf_self fits, storedOf_repaired fits]
      exact decide_eq_false wrong
    · rw [rebuilds.passes_others fits member ne, rebuilds.passes_of_ne member ne]
  refine ⟨?_, ?_⟩
  · rw [← rebuilds.failing]
    exact filter_congr fun other member => by rw [same other member]
  · rw [intactSum, filter_congr same, rebuilds.sum_others fits]

end Rebuilt

/-- A slot that loses nothing by trimming is sound the second time. -/
theorem slot_again (rebuild' : Bool) {rebuild : Bool} (repairable : (slotFindings volume record rebuild slot).assessment.unrepairableUnits = [])
    (whole : ∀ index, Rebuilds volume record slot index → trimmed volume record slot index = rebuilt volume record slot) :
    let again := (slotFindings (repaired volume record) record rebuild' slot).assessment
    again.damagedUnits = [] ∧ again.damagedParity = (slotFindings volume record rebuild slot).assessment.damagedParity ∧
      again.damagedChecksums = (slotFindings volume record rebuild slot).assessment.damagedChecksums := by
  intro again
  have parity := parityOf_repaired fits slot
  have verdict := slotFindings_verdict volume record rebuild slot
  generalize slotFindings volume record rebuild slot = first at repairable verdict
  cases verdict with
  | clean none =>
    obtain ⟨failing', sum'⟩ := slot_unchanged fits (not_rebuilds none)
    dsimp only [again]
    rw [slotFindings_clean (failing'.trans none), sum', parity]
    exact ⟨rfl, rfl, rfl⟩
  | @checksum index one same =>
    have not : ∀ other, ¬ Rebuilds volume record slot other := by
      intro other rebuilds
      obtain rfl : index = other := singleton_inj.mp (one.symm.trans rebuilds.failing)
      exact rebuilds.differs same
    obtain ⟨failing', sum'⟩ := slot_unchanged fits not
    have inside := mem_failing.mp (one ▸ mem_singleton_self index)
    have rebuilt' : rebuilt (repaired volume record) record slot = sectorOf (repaired volume record) record index := by
      rw [sectorOf_repaired_of_not fits (inside.2.1.symm ▸ not index), ← same, rebuilt, rebuilt, sum', parity]
    dsimp only [again]
    rw [slotFindings_one (failing'.trans one), if_pos rebuilt']
    exact ⟨rfl, rfl, rfl⟩
  | lost some => exact absurd repairable some
  | @rebuilds index rebuilds =>
    have sector := whole index rebuilds
    obtain ⟨failing', sum'⟩ := rebuilds.clean fits (by rw [sector]; exact rebuilds.right)
    have balanced : intactSum (repaired volume record) record slot = parityOf (repaired volume record) record slot := by
      rw [sum', sector, rebuilt, Sector.xor_xor_cancel, parity]
    dsimp only [again]
    rw [slotFindings_clean failing', if_neg (not_not.mpr balanced)]
    exact ⟨rfl, rfl, rfl⟩

section
variable (rebuild' : Bool) (rebuilds : Rebuilds volume record slot index)
  (cut : trimmed volume record slot index ≠ rebuilt volume record slot)
include rebuild' rebuilds cut

/-- A trimmed sector that does not pass is reported again. -/
theorem Rebuilds.damaged_again
    (wrong : sectorChecksum (trimmed volume record slot index) ≠ storedOf volume record index) :
    (Rr3.slotFindings (repaired volume record) record rebuild' slot).assessment.damagedUnits = [index] := by
  obtain ⟨failing', sum'⟩ := rebuilds.damaged fits wrong
  have differs : rebuilt (repaired volume record) record slot ≠ sectorOf (repaired volume record) record index := by
    rw [rebuilds.sectorOf_self fits, rebuilt, sum', parityOf_repaired fits]
    exact cut.symm
  rw [slotFindings_one failing', if_neg differs]
  split <;> rfl

/-- A slot that loses bytes by trimming is not. -/
theorem slot_not_again :
    let again := (slotFindings (repaired volume record) record rebuild' slot).assessment
    again.damagedUnits = [index] ∨ again.damagedParity = [slot] := by
  intro again
  have parity := parityOf_repaired fits slot
  by_cases right : sectorChecksum (trimmed volume record slot index) = storedOf volume record index
  · right
    obtain ⟨failing', sum'⟩ := rebuilds.clean fits right
    have unbalanced : intactSum (repaired volume record) record slot ≠ parityOf (repaired volume record) record slot := by
      intro balanced
      rw [sum', parity] at balanced
      exact cut (by rw [rebuilt, ← balanced, Sector.xor_xor_cancel])
    dsimp only [again]
    rw [slotFindings_clean failing', if_pos unbalanced]
  · left
    exact Rebuilds.damaged_again fits _ rebuilds cut right

end

end Again

/-! ### Whole examinations -/

section Whole
variable {volume : List UInt8} {record : Record}

theorem mem_damagedParity {rebuild : Bool} {slot key : Nat}
    (member : key ∈ (slotFindings volume record rebuild slot).assessment.damagedParity) : key = slot := by
  have verdict := slotFindings_verdict volume record rebuild slot
  generalize slotFindings volume record rebuild slot = findings at member verdict
  cases verdict with
  | clean =>
    split at member
    · exact mem_singleton.mp member
    · cases member
  | checksum | rebuilds | lost => cases member

/-- Windows do not show in what an examination finds. -/
theorem sorted_examination {rebuild : Bool} {exam : Examination}
    (similar : exam.Similar (wholeFindings volume record rebuild)) :
    exam.sorted = (wholeFindings volume record rebuild).sorted :=
  (similar.symm.sorted_eq fun _ member _ member' => patch_told member member').symm

/-- What the findings of all slots say the second time. -/
theorem gather_again (fits : record.Fits volume.length) (rebuild' : Bool)
    (repairable : (wholeFindings volume record true).assessment.unrepairableUnits = []) :
    let first := (wholeFindings volume record true).sorted.assessment
    let again := (wholeFindings (repaired volume record) record rebuild').sorted.assessment
    (again.damagedUnits = [] ∧ again.damagedParity = first.damagedParity ∧ again.damagedChecksums = first.damagedChecksums) ↔
      ∀ slot index, Rebuilds volume record slot index → trimmed volume record slot index = rebuilt volume record slot := by
  intro first again
  have repairableSlot (slot : Nat) (below : slot ∈ range record.slots) :
      (slotFindings volume record true slot).assessment.unrepairableUnits = [] :=
    flatMap_eq_nil_iff.mp repairable slot below
  constructor
  · rintro ⟨units, parity, -⟩ slot index rebuilds
    by_contra cut
    have below : slot ∈ range record.slots :=
      mem_range.mpr (rebuilds.inside.2 ▸ Nat.mod_lt index record.slots_pos)
    rcases slot_not_again fits rebuild' rebuilds cut with unit | unbalanced
    · have member : index ∈ again.damagedUnits :=
        (mem_insertionSort _).mpr (mem_flatMap.mpr ⟨slot, below, by rw [unit]; exact mem_singleton_self _⟩)
      rw [units] at member
      cases member
    · have member : slot ∈ again.damagedParity :=
        (mem_insertionSort _).mpr (mem_flatMap.mpr ⟨slot, below, by rw [unbalanced]; exact mem_singleton_self _⟩)
      rw [parity] at member
      obtain ⟨other, _, found⟩ := mem_flatMap.mp ((mem_insertionSort _).mp member)
      obtain rfl := mem_damagedParity found
      rw [rebuilds.slotFindings] at found
      cases found
  · intro whole
    have slots (slot : Nat) (below : slot ∈ range record.slots) :=
      slot_again fits rebuild' (repairableSlot slot below) (whole slot)
    refine ⟨?_, ?_, ?_⟩
    · have none : (range record.slots).flatMap (fun slot =>
          (slotFindings _ record _ slot).assessment.damagedUnits) = [] :=
        flatMap_eq_nil_iff.mpr fun slot below => (slots slot below).1
      exact congrArg (insertionSort (· ≤ ·)) none
    · exact congrArg (insertionSort (· ≤ ·)) (flatMap_congr fun slot below => (slots slot below).2.1)
    · exact congrArg (insertionSort (· ≤ ·)) (flatMap_congr fun slot below => (slots slot below).2.2)

/-- Only the last sector can lose bytes by trimming. -/
theorem whole_iff (repairable :
      (wholeFindings volume record true).assessment.unrepairableUnits = []) :
    (∀ slot index, Rebuilds volume record slot index → trimmed volume record slot index = rebuilt volume record slot) ↔
      (record.sectors - 1 ∈ (wholeFindings volume record true).assessment.damagedUnits →
        ∀ j (small : j < 512), record.headerOffset ≤ (record.sectors - 1) * 512 + j →
          (rebuilt volume record ((record.sectors - 1) % record.slots))[j] = 0) := by
  constructor
  · intro whole member
    obtain ⟨slot, below, found⟩ := mem_flatMap.mp member
    have none := flatMap_eq_nil_iff.mp repairable slot below
    have verdict := slotFindings_verdict volume record true slot
    generalize slotFindings volume record true slot = findings at found none verdict
    cases verdict with
    | clean | checksum => cases found
    | lost some => exact absurd none some
    | rebuilds rebuilds =>
      obtain rfl := mem_singleton.mp found
      rw [rebuilds.inside.2]
      exact (trimmed_eq_iff volume record slot _).mp (whole slot _ rebuilds)
  · intro zero slot index rebuilds
    obtain ⟨inside, place⟩ := rebuilds.inside
    by_cases last : index + 1 < record.sectors
    · exact trimmed_eq_of_lt volume slot last
    · obtain rfl : index = record.sectors - 1 := by omega
      refine (trimmed_eq_iff volume record slot _).mpr ?_
      rw [← place]
      refine zero (mem_flatMap.mpr ⟨slot, mem_range.mpr (place ▸ Nat.mod_lt _ record.slots_pos), ?_⟩)
      rw [rebuilds.slotFindings]
      exact mem_singleton_self _

end Whole

/-- One protected byte, one checksum and one parity sector. -/
def tinyRecord : Record where
  headerOffset := 1
  dataOffset := 2
  sectors := 1
  slots := 1
  foundByScan := false
  slots_pos := by decide
  sectors_pos := by decide
  sectors_eq := by decide
  header_before := by decide

/-- A sector that ends in a byte that is not zero. -/
def padSector : Sector := (Vector.replicate 511 0).push 1

/-- A volume with that parity sector and its checksum. -/
def paddedVolume : List UInt8 := [0, 0, 17, 186] ++ padSector.toList

theorem padded_fits : tinyRecord.Fits paddedVolume.length := by
  unfold Record.Fits
  rw [paddedVolume, length_append, Vector.length_toList]
  decide

theorem padded_parityOf : parityOf paddedVolume tinyRecord 0 = padSector := by
  refine ext fun j small => ?_
  have place : tinyRecord.parityAt 0 + j - [(0 : UInt8), 0, 17, 186].length = j := Nat.add_sub_cancel_left 4 j
  simp only [parityOf, getElem_ofFn, paddedVolume]
  rw [getD_append_right _ _ _ _ (Nat.le_add_right 4 j), place,
    getD_eq_getElem _ _ (by rw [Vector.length_toList]; exact small)]
  exact Vector.getElem_toList _

theorem padded_sectorOf : sectorOf paddedVolume tinyRecord 0 = .zero := by
  refine ext fun j small => ?_
  simp only [sectorOf, Sector.zero, getElem_ofFn, Vector.getElem_replicate, Nat.zero_mul, Nat.zero_add]
  rcases j with _ | j
  · rfl
  · exact if_neg (Nat.not_lt.mpr (Nat.le_add_left 1 j))

theorem padded_storedOf : storedOf paddedVolume tinyRecord 0 = 47633 := rfl

set_option maxRecDepth 4096 in
theorem checksum_padSector : sectorChecksum padSector = 47633 := by decide +kernel

set_option maxRecDepth 4096 in
theorem checksum_zero : sectorChecksum .zero ≠ 47633 := by decide +kernel

theorem padded_fails : passes paddedVolume tinyRecord 0 = false := by
  unfold passes
  rw [padded_sectorOf, padded_storedOf]
  exact decide_eq_false checksum_zero

theorem padded_inSlot : inSlot tinyRecord 0 = [0] := by decide

theorem padded_rebuilt : rebuilt paddedVolume tinyRecord 0 = padSector := by
  rw [rebuilt, intactSum, padded_inSlot, filter_singleton, padded_fails, padded_parityOf, Sector.xor_comm]
  exact Sector.xor_zero padSector

theorem padded_rebuilds : Rebuilds paddedVolume tinyRecord 0 0 where
  failing := by
    rw [failing, padded_inSlot, filter_singleton, padded_fails]
    rfl
  differs := by
    rw [padded_rebuilt, padded_sectorOf]
    intro same
    exact checksum_zero (same ▸ checksum_padSector)
  right := by rw [padded_rebuilt, padded_storedOf, checksum_padSector]

theorem padded_trimmed : trimmed paddedVolume tinyRecord 0 0 = .zero := by
  refine ext fun j small => ?_
  simp only [trimmed, padded_rebuilt, Sector.zero, getElem_ofFn, Vector.getElem_replicate, Nat.zero_mul, Nat.zero_add]
  rcases j with _ | j
  · rfl
  · exact if_neg (Nat.not_lt.mpr (Nat.le_add_left 1 j))

theorem tiny_slots : range tinyRecord.slots = [0] := rfl

end Rarpar.Unrar.Rr3

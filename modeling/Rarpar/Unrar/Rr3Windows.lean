import Rarpar.Data.Classes
import Rarpar.Unrar.Rr3Slots

namespace Rarpar.Unrar.Rr3
open Examination List Nat

section Findings
variable (volume : List UInt8) (record : Record) (rebuild : Bool)

/-- The sectors of a slot in which more than one fails. -/
def crowded (slot : Nat) : List Nat := if 2 ≤ (failing volume record slot).length then failing volume record slot else []

/-- Units that are damaged and cannot be rebuilt. -/
def lostUnits (units : List Nat) : Examination := ⟨⟨record.layout, units, units, [], [], 0⟩, []⟩

/-- What the end of a pass finds in a slot. -/
def settled (slot : Nat) : Examination :=
  record.settle rebuild (.new record.layout) slot (stateOf volume record (failing volume record slot))
    (intactSum volume record slot) (parityOf volume record slot)

/-- All that is found in a slot. -/
def slotFindings (slot : Nat) : Examination := (settled volume record rebuild slot).add (lostUnits record (crowded volume record slot))

/-- All that is found in the slots of a volume. -/
abbrev wholeFindings : Examination := gather record.layout (slotFindings volume record rebuild) (List.range record.slots)

variable {volume record rebuild}

theorem settle_eq_add (out : Examination) (slot : Nat) (state : Slot) (acc parity : Sector) :
    record.settle rebuild out slot state acc parity =
      out.add (record.settle rebuild (.new record.layout) slot state acc parity) := by
  have nothing (out : Examination) : out.add (.new record.layout) = out := by
    simp only [add, new, append_nil]
  unfold Record.settle
  split
  · split
    · simp only [add, new, append_nil, nil_append]
    · exact (nothing out).symm
  · exact (nothing out).symm
  · dsimp only
    split_ifs <;> simp only [add, new, append_nil, nil_append]

theorem foldl_lost (record : Record) (lost : Nat → Bool) (units : List Nat) (out : Examination) :
    units.foldl (fun (out : Examination) index =>
      if lost index then { out with assessment := { out.assessment with
          damagedUnits := out.assessment.damagedUnits ++ [index]
          unrepairableUnits := out.assessment.unrepairableUnits ++ [index] } }
      else out) out = out.add (lostUnits record (units.filter lost)) := by
  induction units generalizing out with
  | nil => simp only [add, lostUnits, foldl_nil, filter_nil, append_nil]
  | cons index rest ih =>
    rw [foldl_cons, ih, filter_cons]
    split
    · simp only [add, lostUnits, append_nil, append_assoc, cons_append, nil_append]
    · rfl

/-- The sectors whose slots are in a window. -/
def inWindow (record : Record) (first last : Nat) : List Nat :=
  (List.range record.sectors).filter fun index => decide (first ≤ index % record.slots ∧ index % record.slots < last)

theorem inWindow_all (record : Record) : inWindow record 0 record.slots = range record.sectors :=
  filter_eq_self.mpr fun index _ => decide_eq_true ⟨Nat.zero_le _, mod_lt index record.slots_pos⟩

/-- The sectors a window visits that belong to one of its slots. -/
theorem filter_window {first last slot : Nat} (below : slot < last - first) :
    ((inWindow record first last).filter fun index => record.slotOf first index = slot) = inSlot record (first + slot) := by
  rw [inWindow, filter_filter]
  refine filter_congr fun index _ => ?_
  rw [← Bool.decide_and]
  refine decide_eq_decide.mpr ?_
  unfold Record.slotOf
  omega

section Window
variable {first last : Nat} (inside : last ≤ record.slots) {pass : Pass}
  (knows : Knows volume record (record.slotOf first) (inWindow record first last) pass)
include knows

theorem Knows.acc_eq {slot : Nat} (below : slot < last - first) : pass.acc slot = intactSum volume record (first + slot) := by
  rw [knows.acc, filter_window below]
  rfl

theorem Knows.state_eq {slot : Nat} (below : slot < last - first) :
    pass.state slot = stateOf volume record (failing volume record (first + slot)) := by
  rw [knows.state, filter_window below]
  rfl

/-- The sectors of crowded slots, slot by slot. -/
theorem Knows.lost_perm : (pass.damaged.filter fun index => decide (pass.state (record.slotOf first index) = .many)).Perm
    ((range' first (last - first)).flatMap (crowded volume record)) := by
  refine (perm_flatMap_classes (· % record.slots) (nodup_range' ..) fun index member => ?_).trans
    (List.Perm.of_eq (flatMap_congr fun slot member => ?_))
  · rw [knows.damaged, inWindow] at member
    have bounds := of_decide_eq_true (mem_filter.mp (mem_filter.mp (mem_filter.mp member).1).1).2
    exact mem_range'_1.mpr (by omega)
  · obtain ⟨low, high⟩ := mem_range'_1.mp member
    obtain ⟨relative, rfl⟩ := Nat.exists_eq_add_of_le low
    have state (index : Nat) (here : index % record.slots = first + relative) :
        pass.state (record.slotOf first index) = .many ↔ 2 ≤ (failing volume record (first + relative)).length := by
      have place : record.slotOf first index = relative := by unfold Record.slotOf; omega
      rw [place, knows.state_eq (by omega), stateOf_eq_many]
    rw [knows.damaged, inWindow, filter_filter, filter_filter, filter_filter, crowded]
    split_ifs with many
    · rw [failing, inSlot, filter_filter]
      refine filter_congr fun index _ => ?_
      grind
    · refine filter_eq_nil_iff.mpr fun index _ => ?_
      grind

end Window

/-- The pass of a window visits the sectors of its slots. -/
theorem passOver_eq (fits : record.Fits volume.length) {first last : Nat} (order : first ≤ last) (inside : last ≤ record.slots) :
    ∃ pass reads, record.passOver volume first last = .ok (pass, reads) ∧
      Knows volume record (record.slotOf first) (inWindow record first last) pass ∧
      bytesRead reads = (inWindow record first last).flatMap (sectorBytes record) := by
  unfold Record.passOver
  split
  · have all : inWindow record first last = range' 0 (record.sectors - 0) := by
      rw [inWindow, ← range_eq_range', Nat.sub_zero]
      refine filter_eq_self.mpr fun index _ => ?_
      have small := mod_lt index record.slots_pos
      rw [decide_eq_true_eq]
      omega
    obtain ⟨reads, ran, covered⟩ := forEach_eq (Pass.visit (record.slotOf first)) fits record.sectors 0 .new (le_refl _) (le_refl _)
    rw [← all] at ran covered
    exact ⟨_, reads, ran, knows_scan _ _, covered⟩
  · obtain ⟨reads, ran, covered⟩ := rounds_eq (Pass.visit (record.slotOf first)) fits record.sectors 0 .new order inside (le_add_left _ _)
    rw [Nat.zero_mul, Nat.sub_zero, ← range_eq_range'] at ran covered
    exact ⟨_, reads, ran, knows_scan _ _, covered⟩

theorem gather_settled {slots lost : List Nat} (perm : lost.Perm (slots.flatMap (crowded volume record))) :
    ((gather record.layout (settled volume record rebuild) slots).add (lostUnits record lost)).Similar
      (gather record.layout (slotFindings volume record rebuild) slots) := by
  refine ⟨rfl, rfl, ?_, ?_, ?_, ?_, ?_⟩
  · exact (List.Perm.append_left _ perm).trans (flatMap_append_perm _ _ _)
  · exact (List.Perm.append_left _ perm).trans (flatMap_append_perm _ _ _)
  all_goals
    simp only [gather, slotFindings, add, lostUnits, append_nil]
    exact .refl _

/-- Two windows side by side. -/
theorem inWindow_perm {first middle last : Nat} (low : first ≤ middle) (high : middle ≤ last) :
    (inWindow record first middle ++ inWindow record middle last).Perm (inWindow record first last) := by
  have lower : inWindow record first middle = (inWindow record first last).filter fun index => decide (index % record.slots < middle) := by
    rw [inWindow, inWindow, filter_filter]
    refine filter_congr fun index _ => ?_
    rw [← Bool.decide_and]
    exact decide_eq_decide.mpr (by omega)
  have upper : inWindow record middle last = (inWindow record first last).filter fun index => !decide (index % record.slots < middle) := by
    rw [inWindow, inWindow, filter_filter]
    refine filter_congr fun index _ => ?_
    rw [← decide_not, ← Bool.decide_and]
    exact decide_eq_decide.mpr (by omega)
  rw [lower, upper]
  exact filter_append_perm _ _

variable (rebuild)

/-- One window finds what its slots hold. -/
theorem examineSlots_eq (fits : record.Fits volume.length) {first last : Nat} (order : first ≤ last) (inside : last ≤ record.slots)
    (out : Examination) : ∃ out' reads, record.examineSlots volume first last rebuild out = .ok (out', reads) ∧
      out'.Similar (out.add (gather record.layout (slotFindings volume record rebuild) (range' first (last - first)))) ∧
      bytesRead reads = (inWindow record first last).flatMap (sectorBytes record) := by
  obtain ⟨pass, reads, ran, knows, covered⟩ := passOver_eq fits order inside
  unfold Record.examineSlots
  dsimp only [bind, Except.bind]
  rw [ran]
  have parityInside : record.parityAt first + (last - first) * sectorLen ≤ volume.length := by
    unfold Record.Fits at fits
    simp only [Record.parityAt, sectorLen] at fits ⊢
    omega
  rw [readExactAt_eq parityInside]
  dsimp only
  have settledAll : (range (last - first)).foldl (fun out slot => record.settle rebuild out (first + slot) (pass.state slot)
      (pass.acc slot) (sectorIn ((volume.drop (record.parityAt first)).take ((last - first) * sectorLen)) slot)) out =
      out.add (gather record.layout (settled volume record rebuild) (range' first (last - first))) := by
    rw [← foldl_add, range'_eq_map_range, foldl_map]
    refine foldl_ext _ _ _ fun out slot member => ?_
    have below := mem_range.mp member
    rw [knows.state_eq below, knows.acc_eq below, Record.sectorIn_parity below, settle_eq_add]
    rfl
  have lostAll := foldl_lost record (fun index => decide (pass.state (record.slotOf first index) = .many)) pass.damaged
    (out.add (gather record.layout (settled volume record rebuild) (range' first (last - first))))
  simp only [decide_eq_true_eq] at lostAll
  rw [settledAll, lostAll, add_assoc]
  exact ⟨_, reads, rfl, (Examination.Similar.refl out).add (gather_settled knows.lost_perm), covered⟩

theorem inWindow_done {first : Nat} (done : record.slots ≤ first) : inWindow record first record.slots = [] := by
  refine filter_eq_nil_iff.mpr fun index _ => ?_
  rw [decide_eq_true_eq]
  omega

/-- The windows from a slot on find what the slots from there on hold. -/
theorem windows_eq (fits : record.Fits volume.length) {window : Nat} (fuel first : Nat) (positive : 1 ≤ window)
    (enough : record.slots ≤ first + fuel) (out : Examination) :
    ∃ out' reads, record.windows volume rebuild window fuel first out = .ok (out', reads) ∧
      out'.Similar (out.add (gather record.layout (slotFindings volume record rebuild)
        (range' first (record.slots - first)))) ∧
      (bytesRead reads).Perm ((inWindow record first record.slots).flatMap (sectorBytes record)) := by
  induction fuel generalizing first out with
  | zero =>
    rw [show record.slots - first = 0 by omega, inWindow_done (by omega), range'_zero, add_gather_nil]
    exact ⟨out, [], rfl, .refl out, .refl _⟩
  | succ fuel ih =>
    unfold Record.windows
    by_cases more : first < record.slots
    · rw [if_pos more]
      generalize cut : min record.slots _ = last
      obtain ⟨middle, reads, ran, found, covered⟩ := examineSlots_eq rebuild fits
        (show first ≤ last by omega) (show last ≤ record.slots by omega) out
      obtain ⟨out', later, rest, foundLater, coveredLater⟩ := ih last (by omega) middle
      dsimp only [bind, Except.bind]
      rw [ran]
      dsimp only
      rw [rest]
      refine ⟨out', reads ++ later, rfl, ?_, ?_⟩
      · have joined := foundLater.trans (found.add (Examination.Similar.refl _))
        rw [add_assoc, gather_append, range'_join (by omega), show last - first + (record.slots - last) = record.slots - first by omega]
          at joined
        exact joined
      · rw [bytesRead_append, covered]
        refine (List.Perm.append_left _ coveredLater).trans ?_
        rw [← flatMap_append]
        exact List.Perm.flatMap_right _ (inWindow_perm (by omega) (by omega))
    · rw [if_neg more, show record.slots - first = 0 by omega, inWindow_done (by omega), range'_zero, add_gather_nil]
      exact ⟨out, [], rfl, .refl out, .refl _⟩

/-- An examination finds what the slots hold, whatever the window, and reads every protected byte once. -/
theorem examineInWindows_eq (fits : record.Fits volume.length) {window : Nat} (positive : 1 ≤ window) :
    ∃ exam reads, record.examineInWindows volume rebuild window = .ok (exam, reads) ∧
      exam.Similar (wholeFindings volume record rebuild) ∧
      (bytesRead reads).Perm (range record.headerOffset) := by
  obtain ⟨exam, reads, ran, found, covered⟩ := windows_eq rebuild fits record.slots 0 positive
    (le_add_left _ _) _
  refine ⟨exam, reads, ran, ?_, ?_⟩
  · rw [wholeFindings, range_eq_range']
    exact found
  · have bytes := record.protected_le
    rw [inWindow_all, range_eq_range', flatMap_sectorBytes, show min _ record.headerOffset - 0 * 512 = record.headerOffset by omega,
      zero_mul, ← range_eq_range'] at covered
    exact covered

end Findings
end Rarpar.Unrar.Rr3

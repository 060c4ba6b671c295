import Rarpar.Par2.PartialSlice

namespace Rarpar.Par2
open Ranges

/-- The bytes of a slice, filled up with zeros. -/
def padded (sliceSize : Nat) (bytes : List UInt8) : List UInt8 := bytes ++ List.replicate (sliceSize - bytes.length) 0

theorem SliceFingerprint.fromData_eq (hashes : Hashes) (bytes : List UInt8) (sliceSize : Nat) :
    fromData hashes bytes sliceSize = ⟨hashes.crc32 (padded sliceSize bytes), hashes.md5 (padded sliceSize bytes)⟩ := by
  have fed : ((SliceChecksumState.new.update bytes).pad (if bytes.length < sliceSize then some sliceSize else none)).fed =
      padded sliceSize bytes := by
    by_cases short : bytes.length < sliceSize
    · rw [if_pos short]
      rfl
    · rw [if_neg short, padded, Nat.sub_eq_zero_of_le (by omega), List.replicate_zero, List.append_nil]
      rfl
  rw [fromData, SliceChecksumState.finalize, fed]
  rfl

/-- What a file's state says of one slice. -/
structure Slot where
  buffer : Option PartialSlice
  verified : Option Bool
  fingerprint : Option SliceFingerprint

def FileVerificationState.slot (sliceIndex : Nat) (s : FileVerificationState) : Slot :=
  ⟨s.partialSlices sliceIndex, s.verifiedSlices[sliceIndex]?.join, s.fingerprints[sliceIndex]?.join⟩

def SliceFeed.isConflict : SliceFeed → Bool
  | .conflict _ => true
  | _ => false

def SliceFeed.isExhausted : SliceFeed → Bool
  | .budgetExhausted _ => true
  | _ => false

section Slots
variable (hashes : Hashes) (len sliceSize : Nat) (expected : SliceChecksum)

/-- What a piece of data can do to the slice it falls into. -/
inductive SlotStep (start : Nat) (data : List UInt8) : SliceFeed → Slot → Slot → Prop
  | settled {feed slot fingerprint} (done : slot.fingerprint = some fingerprint)
      (quiet : feed.isConflict = true →
        start = 0 ∧ data.length = len ∧ fingerprint ≠ .fromData hashes data sliceSize) : SlotStep start data feed slot slot
  | conflict {feed p} (differs : p.matchesRange start data = false) :
      SlotStep start data feed ⟨some p, none, none⟩ ⟨none, none, none⟩
  | whole {feed buffer rest} (start_ : start = 0) (all : data.length = len) (rest_ : rest = none ∨ rest = buffer)
      (quiet : feed.isConflict = false) :
      SlotStep start data feed ⟨buffer, none, none⟩
        ⟨rest, some ((SliceFingerprint.fromData hashes data sliceSize).isValidFor expected),
          some (.fromData hashes data sliceSize)⟩
  | exhausted {feed buffer} (limit : feed.isExhausted = true) :
      SlotStep start data feed ⟨buffer, none, none⟩ ⟨buffer, none, none⟩
  | buffered {feed buffer p} (inserted : PartialSlice.Inserted (buffer.getD (.new len)) p start data)
      (open_ : p.isComplete = false) (quiet : feed.isConflict = false) :
      SlotStep start data feed ⟨buffer, none, none⟩ ⟨some p, none, none⟩
  | completed {feed buffer p} (inserted : PartialSlice.Inserted (buffer.getD (.new len)) p start data)
      (full : p.isComplete = true) (quiet : feed.isConflict = false) :
      SlotStep start data feed ⟨buffer, none, none⟩
        ⟨none, some ((SliceFingerprint.fromData hashes p.ranges.contents sliceSize).isValidFor expected),
          some (.fromData hashes p.ranges.contents sliceSize)⟩

/-- The buffered bytes and the bytes behind a verdict were all fed. -/
structure SlotInv (Fed : Nat → UInt8 → Prop) (slot : Slot) : Prop where
  buffer : ∀ p, slot.buffer = some p →
    p.Sound ∧ p.expectedLen = len ∧ p.isComplete = false ∧ ∀ k v, p.ranges.Holds k v → Fed k v
  verdict : slot.verified = slot.fingerprint.map (·.isValidFor expected)
  settled : ∀ fingerprint, slot.fingerprint = some fingerprint →
    ∃ bytes, bytes.length = len ∧ (∀ k v, bytes[k]? = some v → Fed k v) ∧ fingerprint = .fromData hashes bytes sliceSize

/-- A slice is settled once all of it is covered, and before that the buffer is what is covered. -/
structure SlotExact (Covered : Nat → Prop) (slot : Slot) : Prop where
  settled : slot.fingerprint ≠ none → ∀ k < len, Covered k
  waiting : slot.fingerprint = none → ∀ k < len, (Covered k ↔ ∃ p, slot.buffer = some p ∧ p.ranges.Covers k)

end Slots

section Steps
variable {hashes : Hashes} {len sliceSize : Nat} {expected : SliceChecksum} {Fed : Nat → UInt8 → Prop}
  {start : Nat} {data : List UInt8} {feed : SliceFeed} {slot slot' : Slot}

theorem SlotInv.empty : SlotInv hashes len sliceSize expected Fed ⟨none, none, none⟩ := ⟨nofun, rfl, nofun⟩

theorem SlotInv.mono {More : Nat → UInt8 → Prop} (more : ∀ k v, Fed k v → More k v)
    (inv : SlotInv hashes len sliceSize expected Fed slot) : SlotInv hashes len sliceSize expected More slot where
  buffer p present := by
    obtain ⟨sound, length, open_, fed⟩ := inv.buffer p present
    exact ⟨sound, length, open_, fun k v held => more k v (fed k v held)⟩
  verdict := inv.verdict
  settled _ done := by
    obtain ⟨bytes, length, fed, same⟩ := inv.settled _ done
    exact ⟨bytes, length, fun k v present => more k v (fed k v present), same⟩

/-- The buffer to insert into, fresh or not. -/
theorem SlotInv.target {buffer : Option PartialSlice} {verified : Option Bool} {fingerprint : Option SliceFingerprint}
    (inv : SlotInv hashes len sliceSize expected Fed ⟨buffer, verified, fingerprint⟩) :
    (buffer.getD (.new len)).Sound ∧ (buffer.getD (.new len)).expectedLen = len ∧
      ∀ k v, (buffer.getD (.new len)).ranges.Holds k v → Fed k v := by
  cases buffer with
  | none => exact ⟨PartialSlice.new_sound len, rfl, fun k v held => by obtain ⟨r, member, _⟩ := held; cases member⟩
  | some p =>
    obtain ⟨sound, length, _, fed⟩ := inv.buffer p rfl
    exact ⟨sound, length, fed⟩

/-- Inserted bytes were fed. -/
theorem inserted_fed {p p' : PartialSlice} (inserted : PartialSlice.Inserted p p' start data)
    (old : ∀ k v, p.ranges.Holds k v → Fed k v) (new : ∀ k v, start ≤ k → data[k - start]? = some v → Fed k v) :
    ∀ k v, p'.ranges.Holds k v → Fed k v := by
  intro k v held
  rcases (inserted.holds k v).mp held with before | ⟨_, least, present⟩
  · exact old k v before
  · exact new k v least present

section
variable (step : SlotStep hashes len sliceSize expected start data feed slot slot')
include step

theorem SlotStep.inv (inv : SlotInv hashes len sliceSize expected Fed slot)
    (new : ∀ k v, start ≤ k → data[k - start]? = some v → Fed k v) : SlotInv hashes len sliceSize expected Fed slot' := by
  cases step with
  | settled | exhausted => exact inv
  | conflict => exact .empty
  | @whole buffer rest start_ all rest_ =>
    refine ⟨fun p present => ?_, rfl, fun fingerprint done => ?_⟩
    · rcases rest_ with none_ | same
      · rw [none_] at present
        cases present
      · exact inv.buffer p (same ▸ present)
    · cases done
      exact ⟨data, all, fun k v present => new k v (by omega) (by rwa [start_]), rfl⟩
  | buffered inserted open_ _ =>
    obtain ⟨sound, length, fed⟩ := inv.target
    refine ⟨fun p present => ?_, rfl, nofun⟩
    cases present
    exact ⟨inserted.sound, inserted.expectedLen.trans length, open_, inserted_fed inserted fed new⟩
  | @completed buffer p inserted full =>
    obtain ⟨sound, length, fed⟩ := inv.target
    obtain ⟨size, contiguous, _⟩ := inserted.sound.fingerprint_eq full hashes sliceSize
    refine ⟨nofun, rfl, fun fingerprint done => ?_⟩
    cases done
    refine ⟨p.ranges.contents, size.trans (inserted.expectedLen.trans length), fun k v present => ?_, rfl⟩
    have held := contiguous.getElem?_contents present
    rw [Nat.zero_add] at held
    exact inserted_fed inserted fed new k v held

theorem SlotStep.verdict_kept
    (inv : SlotInv hashes len sliceSize expected Fed slot) {valid : Bool} (done : slot.verified = some valid) :
    slot'.verified = some valid := by
  cases step with
  | settled => exact done
  | conflict | whole | exhausted | buffered | completed => cases done

end

section Truth
variable {truth : Nat → UInt8} {Covered : Nat → Prop}

/-- True bytes match a buffer of true bytes. -/
theorem matchesRange_of_true {p : PartialSlice} (held : ∀ k v, p.ranges.Holds k v → v = truth k)
    (new : ∀ k v, start ≤ k → data[k - start]? = some v → v = truth k) : p.matchesRange start data = true :=
  PartialSlice.matchesRange_of_agree fun k v w old least present => (held k v old).trans (new k w least present).symm

section
variable (step : SlotStep hashes len sliceSize expected start data feed slot slot')
  (inv : SlotInv hashes len sliceSize expected (fun k v => v = truth k) slot)
  (new : ∀ k v, start ≤ k → data[k - start]? = some v → v = truth k)
include step inv new

/-- True bytes conflict neither with a buffer nor with a verdict. -/
theorem SlotStep.not_conflict
     : feed.isConflict = false := by
  rw [Bool.eq_false_iff]
  intro loud
  cases step with
  | settled done quiet =>
    obtain ⟨start_, all, differs⟩ := quiet loud
    obtain ⟨bytes, length, fed, same⟩ := inv.settled _ done
    refine differs (same.trans (congrArg (fun bytes => SliceFingerprint.fromData hashes bytes _) ?_))
    apply List.ext_getElem (length.trans all.symm)
    intro k left right
    have stored := fed k _ (List.getElem?_eq_getElem left)
    have given := new k data[k] (by omega) (by rw [start_]; exact List.getElem?_eq_getElem right)
    exact stored.trans given.symm
  | @conflict p differs =>
    obtain ⟨_, _, _, held⟩ := inv.buffer p rfl
    rw [matchesRange_of_true held new] at differs
    cases differs
  | exhausted limit =>
    cases feed with
    | conflict => cases limit
    | verified | buffered | duplicate | budgetExhausted | needsSettleRead => cases loud
  | whole _ _ _ quiet | buffered _ _ quiet | completed _ _ quiet =>
    rw [quiet] at loud
    cases loud

/-- A piece of true data that no limit refuses extends what is covered. -/
theorem SlotStep.exact (enough : feed.isExhausted = false)
    (exact : SlotExact len Covered slot) :
    SlotExact len (fun k => Covered k ∨ (start ≤ k ∧ k < start + data.length)) slot' := by
  have extended {buffer : Option PartialSlice} {p : PartialSlice} (exact : SlotExact len Covered ⟨buffer, none, none⟩)
      (inserted : PartialSlice.Inserted (buffer.getD (.new len)) p start data) (k : Nat) (inside : k < len) :
      (Covered k ∨ (start ≤ k ∧ k < start + data.length)) ↔ p.ranges.Covers k := by
    rw [inserted.covers, exact.waiting rfl k inside]
    refine or_congr_left ?_
    cases buffer with
    | none => exact iff_of_false nofun Runs.not_covers_nil
    | some old => simp
  cases step with
  | settled done =>
    refine ⟨fun some_ k inside => Or.inl (exact.settled some_ k inside), fun none_ => ?_⟩
    rw [done] at none_
    cases none_
  | @conflict p differs =>
    obtain ⟨_, _, _, held⟩ := inv.buffer p rfl
    rw [matchesRange_of_true held new] at differs
    cases differs
  | whole start_ all =>
    exact ⟨fun _ k inside => Or.inr ⟨by omega, by omega⟩, nofun⟩
  | exhausted limit =>
    rw [enough] at limit
    cases limit
  | @buffered buffer p inserted open_ =>
    refine ⟨fun some_ => absurd rfl some_, fun _ k inside => ?_⟩
    rw [extended exact inserted k inside]
    exact ⟨fun covers => ⟨p, rfl, covers⟩, fun ⟨q, same, covers⟩ => by cases same; exact covers⟩
  | @completed buffer p inserted full =>
    obtain ⟨_, length, _⟩ := inv.target
    refine ⟨fun _ k inside => (extended exact inserted k inside).mpr ?_, nofun⟩
    exact inserted.sound.complete_iff.mp full k (by rw [inserted.expectedLen, length]; exact inside)

end

/-- A slice with bytes in it is settled exactly when all of it is covered. -/
theorem SlotExact.settled_iff (inv : SlotInv hashes len sliceSize expected Fed slot)
    (exact : SlotExact len Covered slot) (positive : 0 < len) : slot.verified.isSome ↔ ∀ k < len, Covered k := by
  rw [inv.verdict, Option.isSome_map]
  constructor
  · intro some_
    exact exact.settled (Option.isSome_iff_ne_none.mp some_)
  · intro all
    by_contra none_
    rw [Option.not_isSome_iff_eq_none] at none_
    obtain ⟨p, present, _⟩ := (exact.waiting none_ 0 positive).mp (all 0 positive)
    obtain ⟨sound, length, open_, _⟩ := inv.buffer p present
    rw [Bool.eq_false_iff] at open_
    refine open_ (sound.complete_iff.mpr fun k inside => ?_)
    obtain ⟨q, same, covers⟩ := (exact.waiting none_ k (by omega)).mp (all k (by omega))
    rw [present] at same
    cases same
    exact covers

end Truth
end Steps

end Rarpar.Par2

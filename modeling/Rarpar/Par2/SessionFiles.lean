import Rarpar.Par2.SessionSlots

namespace Rarpar.Par2
open Ranges List Function FileVerificationState

/-- Only one slice has changed. -/
structure Frame (i : Nat) (s s' : FileVerificationState) : Prop where
  fileLength : s'.fileLength = s.fileLength
  sliceSize : s'.sliceSize = s.sliceSize
  verified : s'.verifiedSlices.length = s.verifiedSlices.length
  fingerprints : s'.fingerprints.length = s.fingerprints.length
  others : ∀ j, j ≠ i → s'.slot j = s.slot j

section SliceSteps
variable {hashes : Hashes} {recoverySetId : RecoverySetId} {fileId : FileId} {len : Nat} {expected : SliceChecksum}
  {Fed : Nat → UInt8 → Prop} {i start : Nat} {data : List UInt8} {s : FileVerificationState}

theorem Frame.refl (i : Nat) (s : FileVerificationState) : Frame i s s := ⟨rfl, rfl, rfl, rfl, fun _ _ => rfl⟩

theorem Frame.setPartial (i : Nat) (p : Option PartialSlice) (received : Nat) (s : FileVerificationState) :
    Frame i s { s with partialSlices := update s.partialSlices i p, bytesReceived := received } :=
  ⟨rfl, rfl, rfl, rfl, fun j other => by
    unfold slot
    dsimp only
    rw [update_of_ne other]⟩

theorem Frame.trans {s₁ s₂ s₃ : FileVerificationState} (first : Frame i s₁ s₂) (second : Frame i s₂ s₃) : Frame i s₁ s₃ :=
  ⟨second.fileLength.trans first.fileLength, second.sliceSize.trans first.sliceSize,
    second.verified.trans first.verified, second.fingerprints.trans first.fingerprints,
    fun j other => (second.others j other).trans (first.others j other)⟩

section
variable (i : Nat) (budget : VerificationMemoryBudget) (s : FileVerificationState)

theorem discardPartial_frame : Frame i s (s.discardPartial i budget).1 := by
  unfold discardPartial
  split
  · exact .refl i s
  · exact .setPartial i none s.bytesReceived s

theorem slot_discardPartial : (s.discardPartial i budget).1.slot i = { s.slot i with buffer := none } := by
  unfold discardPartial
  split
  · grind [slot]
  · grind [slot]

end

theorem settle_frame (fingerprint : SliceFingerprint) (received : Nat) :
    Frame i s (s.settle recoverySetId fileId i expected fingerprint received).2 := by
  unfold settle
  refine ⟨rfl, rfl, length_set, length_set, fun j other => ?_⟩
  unfold slot
  rw [getElem?_set_ne other.symm, getElem?_set_ne other.symm]

theorem slot_settle (fingerprint : SliceFingerprint) (received : Nat) (verified : i < s.verifiedSlices.length)
    (fingerprints : i < s.fingerprints.length) :
    (s.settle recoverySetId fileId i expected fingerprint received).2.slot i =
      ⟨s.partialSlices i, some (fingerprint.isValidFor expected), some fingerprint⟩ := by
  unfold settle slot
  rw [getElem?_set_self verified, getElem?_set_self fingerprints]
  rfl

theorem conflict_step (unsettled : s.slot i = ⟨s.partialSlices i, none, none⟩)
    (differs : (s.partialSlices i).any (fun p => !p.matchesRange start data) = true) (feed : SliceFeed)
    (budget : VerificationMemoryBudget) :
    SlotStep hashes len s.sliceSize expected start data feed (s.slot i) ((s.discardPartial i budget).1.slot i) := by
  rw [slot_discardPartial, unsettled]
  cases present : s.partialSlices i with
  | none =>
    grind
  | some p =>
    rw [present, Option.any_some, Bool.not_eq_true'] at differs
    exact .conflict differs

theorem feedWholeSlice_step (verified : i < s.verifiedSlices.length) (fingerprints : i < s.fingerprints.length)
    (unsettled : s.slot i = ⟨s.partialSlices i, none, none⟩) (budget : VerificationMemoryBudget) (all : data.length = len) :
    ∃ feed s' b', feedWholeSlice hashes recoverySetId fileId i data expected s budget = (feed, s', b') ∧
      SlotStep hashes len s.sliceSize expected 0 data feed (s.slot i) (s'.slot i) ∧ Frame i s s' := by
  unfold feedWholeSlice
  dsimp only
  split
  · rename_i differs
    exact ⟨_, _, _, rfl, conflict_step unsettled differs _ budget, discardPartial_frame i budget s⟩
  · -- the buffer goes if it holds bytes
    obtain ⟨s₁, budget₁, same, frame, slot⟩ : ∃ s₁ budget₁,
        (if ((s.partialSlices i).map (·.bufferedBytes)).getD 0 ≠ 0 then s.discardPartial i budget else (s, budget)) =
          (s₁, budget₁) ∧ Frame i s s₁ ∧ (s₁.partialSlices i = none ∨ s₁.partialSlices i = s.partialSlices i) := by
      split
      · refine ⟨_, _, rfl, discardPartial_frame i budget s, Or.inl ?_⟩
        exact congrArg Slot.buffer (slot_discardPartial i budget s)
      · exact ⟨s, budget, rfl, .refl i s, Or.inr rfl⟩
    rw [same]
    refine ⟨_, _, _, rfl, ?_, frame.trans (settle_frame _ _)⟩
    rw [slot_settle _ _ (by rwa [frame.verified]) (by rwa [frame.fingerprints]), unsettled, frame.sliceSize]
    exact .whole rfl all slot rfl

theorem feedPartialSlice_step (verified : i < s.verifiedSlices.length) (fingerprints : i < s.fingerprints.length)
    (unsettled : s.slot i = ⟨s.partialSlices i, none, none⟩) (budget : VerificationMemoryBudget)
    (length : s.sliceLen i = some len) (inv : SlotInv hashes len s.sliceSize expected Fed (s.slot i))
    (fits : start + data.length ≤ len) :
    ∃ feed s' b', feedPartialSlice hashes recoverySetId fileId i start data expected s budget = .ok (feed, s', b') ∧
      SlotStep hashes len s.sliceSize expected start data feed (s.slot i) (s'.slot i) ∧ Frame i s s' := by
  rw [unsettled] at inv
  obtain ⟨sound, expectedLen, _⟩ := inv.target
  unfold feedPartialSlice
  dsimp only
  rw [length, Option.getD_some]
  split_ifs with differs
  · exact ⟨_, _, _, rfl, conflict_step unsettled differs _ budget, discardPartial_frame i budget s⟩
  split
  · refine ⟨_, _, _, rfl, ?_, .refl i s⟩
    rw [unsettled]
    exact .exhausted rfl
  · rename_i added p budget' done
    have inserted := sound.insert_eq (by omega) done
    split
    · rename_i full
      obtain ⟨_, _, hashed⟩ := inserted.sound.fingerprint_eq full hashes s.sliceSize
      rw [hashed]
      refine ⟨_, _, _, rfl, ?_, (Frame.setPartial i none s.bytesReceived s).trans (settle_frame _ _)⟩
      rw [slot_settle (s := { s with partialSlices := update s.partialSlices i none }) _ _ verified fingerprints,
        unsettled]
      dsimp only
      rw [update_self]
      exact .completed inserted full rfl
    · rename_i open_
      refine ⟨_, _, _, rfl, ?_, .setPartial i (some p) _ s⟩
      have slot : (slot i { s with
          partialSlices := update s.partialSlices i (some p), bytesReceived := s.bytesReceived + added }) =
          { s.slot i with buffer := some p } := by
        unfold slot
        dsimp only
        rw [update_self]
      rw [slot, unsettled]
      exact .buffered inserted (Bool.eq_false_iff.mpr open_) (by split <;> rfl)

theorem feedSliceRange_step (recoverySetId : RecoverySetId) (fileId : FileId) (verified : i < s.verifiedSlices.length) (fingerprints : i < s.fingerprints.length)
    (budget : VerificationMemoryBudget) (length : s.sliceLen i = some len)
    (inv : SlotInv hashes len s.sliceSize expected Fed (s.slot i)) (fits : start + data.length ≤ len) (whole : Bool)
    (all : whole = true → start = 0 ∧ data.length = len) :
    ∃ feed s' b', feedSliceRange hashes recoverySetId fileId i start data whole expected s budget = .ok (feed, s', b') ∧
      SlotStep hashes len s.sliceSize expected start data feed (s.slot i) (s'.slot i) ∧ Frame i s s' := by
  have stored := getElem?_eq_getElem fingerprints
  have judged := getElem?_eq_getElem verified
  have agree := inv.verdict
  unfold feedSliceRange
  rw [stored]
  split
  · rename_i absent
    cases absent
  · rename_i fingerprint present
    have done : (s.slot i).fingerprint = some fingerprint := by
      unfold slot
      rw [stored, present]
      rfl
    split
    · rename_i whole_
      obtain ⟨start_, size⟩ := all whole_
      split
      · exact ⟨_, s, budget, rfl, .settled done nofun, .refl i s⟩
      · exact ⟨_, s, budget, rfl, .settled done fun _ => ⟨start_, size, by assumption⟩, .refl i s⟩
    · exact ⟨_, s, budget, rfl, .settled done nofun, .refl i s⟩
  · rename_i present
    have open_ : (s.slot i).fingerprint = none := by
      unfold slot
      rw [stored, present]
      rfl
    rw [open_, Option.map_none] at agree
    have unsettled : s.slot i = ⟨s.partialSlices i, none, none⟩ :=
      show Slot.mk _ (s.slot i).verified (s.slot i).fingerprint = _ by rw [agree, open_]
    have pending : s.verifiedSlices[i]? = some none := by
      have joined : s.verifiedSlices[i]?.join = none := agree
      rw [judged] at joined ⊢
      exact congrArg some joined
    rw [pending]
    dsimp only
    split_ifs with whole_
    · obtain ⟨start_, size⟩ := all whole_
      obtain ⟨feed, s', b', run, step, frame⟩ := feedWholeSlice_step verified fingerprints unsettled budget size
      rw [run, start_]
      exact ⟨feed, s', b', rfl, step, frame⟩
    · exact feedPartialSlice_step verified fingerprints unsettled budget length inv fits

end SliceSteps

/-- The bytes of a slice that are in the file. -/
def sliceLength (fileLength sliceSize i : Nat) : Nat := min (fileLength - i * sliceSize) sliceSize

theorem lt_numSlices {fileLength sliceSize i : Nat} (positive : 0 < sliceSize) :
    i < numSlices fileLength sliceSize ↔ i * sliceSize < fileLength := by
  unfold numSlices
  split
  · omega
  · rw [← Nat.succ_le_iff, Nat.le_div_iff_mul_le positive, Nat.succ_mul]
    omega

section Pieces
variable {offset off len : Nat} {data : List UInt8}

/-- The part of a feed that falls into the slice at `off`. -/
def piece (offset off len : Nat) (data : List UInt8) : List UInt8 :=
  slice (max offset off - offset) (min (offset + data.length) (off + len) - offset) data

theorem length_piece (offset off len : Nat) (data : List UInt8) :
    (piece offset off len data).length = min (offset + data.length) (off + len) - max offset off := by
  rw [piece, length_slice (by omega)]
  omega

/-- A position of the slice is covered by the piece exactly when it is covered by the feed. -/
theorem piece_covers {k : Nat} (inside : k < len) :
    (max offset off - off ≤ k ∧ k < max offset off - off + (piece offset off len data).length) ↔
      offset ≤ off + k ∧ off + k < offset + data.length := by
  rw [length_piece]
  omega

theorem getElem?_piece {k : Nat} {v : UInt8} (least : max offset off - off ≤ k)
    (present : (piece offset off len data)[k - (max offset off - off)]? = some v) :
    offset ≤ off + k ∧ data[off + k - offset]? = some v := by
  obtain ⟨bound, _⟩ := List.getElem?_eq_some_iff.mp present
  rw [length_piece] at bound
  rw [piece, getElem?_slice (by omega)] at present
  refine ⟨by omega, ?_⟩
  rwa [show max offset off - offset + (k - (max offset off - off)) = off + k - offset by omega] at present

end Pieces

section Files
variable (hashes : Hashes) (fileLength sliceSize : Nat) (checksums : List SliceChecksum)

/-- Every slice of the file keeps its invariant, and one without a checksum is untouched. -/
structure FileInv (Fed : Nat → UInt8 → Prop) (s : FileVerificationState) : Prop where
  length_eq : s.fileLength = fileLength
  size_eq : s.sliceSize = sliceSize
  verified : s.verifiedSlices.length = numSlices fileLength sliceSize
  fingerprints : s.fingerprints.length = numSlices fileLength sliceSize
  slots : ∀ i expected, checksums[i]? = some expected →
    SlotInv hashes (sliceLength fileLength sliceSize i) sliceSize expected (fun k => Fed (i * sliceSize + k)) (s.slot i)
  others : ∀ i, checksums[i]? = none → s.slot i = ⟨none, none, none⟩

end Files

section Loop
variable {hashes : Hashes} {recoverySetId : RecoverySetId} {fileId : FileId} {fileLength sliceSize : Nat}
  {checksums : List SliceChecksum} {Fed : Nat → UInt8 → Prop} {offset : Nat} {data : List UInt8}
  {s s' : FileVerificationState} {i : Nat} {expected : SliceChecksum}

theorem slot_new (fileLength sliceSize i : Nat) : (new fileLength sliceSize).slot i = ⟨none, none, none⟩ := by
  have empty {α : Type} (n : Nat) : (replicate n (none : Option α))[i]?.join = none := by
    grind
  unfold slot new
  rw [empty, empty]

theorem new_inv : FileInv hashes fileLength sliceSize checksums Fed (.new fileLength sliceSize) where
  length_eq := rfl
  size_eq := rfl
  verified := length_replicate
  fingerprints := length_replicate
  slots i _ _ := by
    rw [slot_new]
    exact .empty
  others i _ := slot_new _ _ i

theorem FileInv.mono {More : Nat → UInt8 → Prop} (more : ∀ k v, Fed k v → More k v)
    (inv : FileInv hashes fileLength sliceSize checksums Fed s) : FileInv hashes fileLength sliceSize checksums More s :=
  { inv with slots := fun i expected present => (inv.slots i expected present).mono fun _ v => more _ v }

/-- A step of one slice keeps the others. -/
theorem FileInv.frame (inv : FileInv hashes fileLength sliceSize checksums Fed s) (frame : Frame i s s')
    (present : checksums[i]? = some expected)
    (kept : SlotInv hashes (sliceLength fileLength sliceSize i) sliceSize expected (fun k => Fed (i * sliceSize + k))
      (s'.slot i)) : FileInv hashes fileLength sliceSize checksums Fed s' where
  length_eq := frame.fileLength.trans inv.length_eq
  size_eq := frame.sliceSize.trans inv.size_eq
  verified := frame.verified.trans inv.verified
  fingerprints := frame.fingerprints.trans inv.fingerprints
  slots j other there := by
    by_cases same : j = i
    · grind
    · rw [frame.others j same]
      exact inv.slots j other there
  others j absent := by
    have different : j ≠ i := by
      grind
    rw [frame.others j different]
    exact inv.others j absent

/-- The feed reaches into the slice. -/
structure Touches (fileLength sliceSize offset : Nat) (data : List UInt8) (i : Nat) : Prop where
  starts : i * sliceSize < offset + data.length
  ends : offset < i * sliceSize + sliceSize
  inside : offset + data.length ≤ fileLength
  small : offset + data.length < 2 ^ 64

section
variable (touches : Touches fileLength sliceSize offset data i)
include touches

theorem Touches.lt_numSlices : i < numSlices fileLength sliceSize := by
  have starts := touches.starts
  have ends := touches.ends
  have inside := touches.inside
  have positive : 0 < sliceSize := by
    grind
  exact (Par2.lt_numSlices positive).mpr (by omega)

theorem Touches.sliceOffset
    (inv : FileInv hashes fileLength sliceSize checksums Fed s) : s.sliceOffset i = some (i * sliceSize) := by
  have := touches.starts
  have := touches.small
  rw [FileVerificationState.sliceOffset, inv.size_eq, if_pos (by omega)]

theorem Touches.sliceLen (inv : FileInv hashes fileLength sliceSize checksums Fed s) :
    s.sliceLen i = some (sliceLength fileLength sliceSize i) := by
  have := touches.starts
  have := touches.inside
  rw [FileVerificationState.sliceLen, touches.sliceOffset inv]
  dsimp only
  rw [inv.length_eq, inv.size_eq, if_pos (by omega)]
  rfl

end

/-- One round of the loop: the metadata runs out, or the piece takes its step. -/
theorem feedLoop_cons (inv : FileInv hashes fileLength sliceSize checksums Fed s)
    (touches : Touches fileLength sliceSize offset data i) (rest : List Nat) (tally : FeedTally)
    (budget : VerificationMemoryBudget) :
    (checksums[i]? = none ∧
      feedLoop hashes recoverySetId fileId checksums offset data (i :: rest) tally s budget =
        .ok (.new .metadataPending, s, budget)) ∨
    ∃ expected feed s' b', checksums[i]? = some expected ∧
      feedLoop hashes recoverySetId fileId checksums offset data (i :: rest) tally s budget =
        feedLoop hashes recoverySetId fileId checksums offset data rest (tally.add feed) s' b' ∧
      SlotStep hashes (sliceLength fileLength sliceSize i) sliceSize expected (max offset (i * sliceSize) - i * sliceSize)
        (piece offset (i * sliceSize) (sliceLength fileLength sliceSize i) data) feed (s.slot i) (s'.slot i) ∧
      Frame i s s' := by
  have within := touches.lt_numSlices
  rw [feedLoop, touches.sliceOffset inv, touches.sliceLen inv]
  cases present : checksums[i]? with
  | none => exact Or.inl ⟨rfl, rfl⟩
  | some expected =>
    right
    have slot : SlotInv hashes (sliceLength fileLength sliceSize i) s.sliceSize expected
        (fun k => Fed (i * sliceSize + k)) (s.slot i) := by
      rw [inv.size_eq]
      exact inv.slots i _ present
    have fits : max offset (i * sliceSize) - i * sliceSize +
        (piece offset (i * sliceSize) (sliceLength fileLength sliceSize i) data).length ≤
          sliceLength fileLength sliceSize i := by
      have := touches.ends
      have := touches.inside
      rw [length_piece, sliceLength]
      omega
    obtain ⟨feed, s', b', run, step, frame⟩ := feedSliceRange_step _ fileId
      (by rw [inv.verified]; exact within) (by rw [inv.fingerprints]; exact within) budget (touches.sliceLen inv) slot fits
      (decide (max offset (i * sliceSize) = i * sliceSize ∧
        (piece offset (i * sliceSize) _ data).length =
          sliceLength _ _ i))
      (fun whole => by
        obtain ⟨start, size⟩ := of_decide_eq_true whole
        exact ⟨by omega, size⟩)
    rw [inv.size_eq] at step
    refine ⟨expected, feed, s', b', rfl, ?_, step, frame⟩
    unfold piece at run
    dsimp only
    rw [run]

/-- The step of a piece keeps the file's invariant and its verdicts. -/
theorem FileInv.step (inv : FileInv hashes fileLength sliceSize checksums Fed s)
    (new : ∀ k v, offset ≤ k → data[k - offset]? = some v → Fed k v) (present : checksums[i]? = some expected)
    {feed : SliceFeed}
    (step : SlotStep hashes (sliceLength fileLength sliceSize i) sliceSize expected
      (max offset (i * sliceSize) - i * sliceSize)
      (piece offset (i * sliceSize) (sliceLength fileLength sliceSize i) data) feed (s.slot i) (s'.slot i))
    (frame : Frame i s s') :
    FileInv hashes fileLength sliceSize checksums Fed s' ∧
      ∀ j valid, (s.slot j).verified = some valid → (s'.slot j).verified = some valid := by
  have slot := inv.slots i _ present
  refine ⟨inv.frame frame present (step.inv slot fun k v least there => ?_), fun j valid done => ?_⟩
  · obtain ⟨least, there⟩ := getElem?_piece least there
    exact new _ v least there
  · by_cases same : j = i
    · subst same
      exact step.verdict_kept slot done
    · rw [frame.others j same]
      exact done

theorem feedLoop_sound (recoverySetId : RecoverySetId) (fileId : FileId)
    (inv : FileInv hashes fileLength sliceSize checksums Fed s)
    (new : ∀ k v, offset ≤ k → data[k - offset]? = some v → Fed k v) {indices : List Nat}
    (touches : ∀ i ∈ indices, Touches fileLength sliceSize offset data i) (tally : FeedTally)
    (budget : VerificationMemoryBudget) :
    ∃ outcome s' b', feedLoop hashes recoverySetId fileId checksums offset data indices tally s budget =
        .ok (outcome, s', b') ∧
      FileInv hashes fileLength sliceSize checksums Fed s' ∧
      ∀ j valid, (s.slot j).verified = some valid → (s'.slot j).verified = some valid := by
  induction indices generalizing tally s budget with
  | nil => exact ⟨_, s, budget, rfl, inv, fun _ _ done => done⟩
  | cons i rest ih =>
    have here := touches i mem_cons_self
    have later : ∀ j ∈ rest, Touches fileLength sliceSize offset data j := fun j member =>
      touches j (mem_cons_of_mem i member)
    rcases feedLoop_cons inv here rest tally budget with ⟨_, run⟩ | ⟨expected, feed, s₁, b₁, present, run, step, frame⟩
    · exact ⟨_, s, budget, run, inv, fun _ _ done => done⟩
    · obtain ⟨inv₁, kept₁⟩ := inv.step new present step frame
      obtain ⟨outcome, s', b', run', inv', kept⟩ := ih inv₁ later _ b₁
      exact ⟨outcome, s', b', run.trans run', inv', fun j valid done => kept j valid (kept₁ j valid done)⟩

theorem FeedTally.add_sawConflict (tally : FeedTally) (feed : SliceFeed) :
    (tally.add feed).sawConflict = (tally.sawConflict || feed.isConflict) := by
  cases feed <;> simp [FeedTally.add, SliceFeed.isConflict]

theorem FeedTally.add_sawBudgetExhausted (tally : FeedTally) (feed : SliceFeed) :
    (tally.add feed).sawBudgetExhausted = (tally.sawBudgetExhausted || feed.isExhausted) := by
  cases feed <;> simp [FeedTally.add, SliceFeed.isExhausted]

section Truth
variable {truth : Nat → UInt8}

theorem SlotExact.congr {len : Nat} {Covered Covered' : Nat → Prop} {slot : Slot} (exact : SlotExact len Covered slot)
    (same : ∀ k < len, (Covered' k ↔ Covered k)) : SlotExact len Covered' slot where
  settled done k inside := (same k inside).mpr (exact.settled done k inside)
  waiting open_ k inside := (same k inside).trans (exact.waiting open_ k inside)

/-- A limit that refuses a piece of true data shows in the outcome, and a feed of true data that no limit refuses
extends what is covered, slice by slice. -/
theorem feedLoop_exact (Covered : Nat → Prop)
    (inv : FileInv hashes fileLength sliceSize checksums (fun k v => v = truth k) s)
    (new : ∀ k v, offset ≤ k → data[k - offset]? = some v → v = truth k) {indices : List Nat}
    (touches : ∀ i ∈ indices, Touches fileLength sliceSize offset data i) (once : indices.Nodup)
    (known : ∀ i ∈ indices, i < checksums.length) {tally : FeedTally} {budget b' : VerificationMemoryBudget}
    {outcome : FeedOutcome} (calm : tally.sawConflict = false)
    (run : feedLoop hashes recoverySetId fileId checksums offset data indices tally s budget = .ok (outcome, s', b'))
    (enough : outcome.disposition ≠ .budgetExhausted) :
    tally.sawBudgetExhausted = false ∧
      ((∀ i, SlotExact (sliceLength fileLength sliceSize i) (fun k => Covered (i * sliceSize + k) ∨
        (i ∉ indices ∧ offset ≤ i * sliceSize + k ∧ i * sliceSize + k < offset + data.length)) (s.slot i)) →
      ∀ i, SlotExact (sliceLength fileLength sliceSize i) (fun k => Covered (i * sliceSize + k) ∨
        (offset ≤ i * sliceSize + k ∧ i * sliceSize + k < offset + data.length)) (s'.slot i)) := by
  induction indices generalizing tally s budget with
  | nil =>
    cases run
    refine ⟨Bool.eq_false_iff.mpr fun exhausted => enough ?_, fun exact i => (exact i).congr fun k _ => by simp⟩
    simp [FeedTally.outcome, FeedTally.disposition, calm, exhausted]
  | cons i rest ih =>
    have here := touches i mem_cons_self
    obtain ⟨fresh, once⟩ := nodup_cons.mp once
    rcases feedLoop_cons inv here rest tally budget with ⟨absent, _⟩ | ⟨expected, feed, s₁, b₁, present, run₁, step, frame⟩
    · grind
    have slot := inv.slots i _ present
    have true_ : ∀ k v, max offset (i * sliceSize) - i * sliceSize ≤ k →
        (piece offset (i * sliceSize) (sliceLength fileLength sliceSize i) data)[k -
          (max offset (i * sliceSize) - i * sliceSize)]? = some v → v = truth _ := fun k v least there => by
      obtain ⟨least, there⟩ := getElem?_piece least there
      exact new _ v least there
    have calm₁ : (tally.add feed).sawConflict = false := by
      rw [FeedTally.add_sawConflict, calm, step.not_conflict slot true_]
      rfl
    obtain ⟨room, later⟩ := ih (inv.step new present step frame).1 (fun j member => touches j (mem_cons_of_mem i member))
      once (fun j member => known j (mem_cons_of_mem i member)) calm₁ (run₁.symm.trans run)
    rw [FeedTally.add_sawBudgetExhausted, Bool.or_eq_false_iff] at room
    refine ⟨room.1, fun exact => later fun j => ?_⟩
    by_cases same : j = i
    · subst same
      refine (step.exact slot true_ room.2 (exact j)).congr fun k inside => ?_
      rw [piece_covers inside]
      simp only [mem_cons, not_true_eq_false, false_and, or_false, fresh, not_false_eq_true, true_and]
    · rw [frame.others j same]
      refine (exact j).congr fun k _ => ?_
      simp only [mem_cons, same, false_or]

end Truth

end Loop

end Rarpar.Par2

import Rarpar.Data.Panic
import Rarpar.Data.Ranges
import Rarpar.Data.Runs
import Rarpar.Par2.FileSet

namespace Rarpar.Par2
open Ranges (slice)

def defaultBufferedBoundaryBytes : Nat := 64 * 1024 * 1024

def maxPartialRangesPerSlice : Nat := 4096

/-- The position and the vector of a range, and 64 bytes on top. -/
def partialRangeAccountingBytes : Nat := 32 + 64

/-- The cap on buffered bytes of incomplete slices. -/
structure VerificationMemoryBudget where
  maxBufferedBytes : Nat
  bufferedBytes : Nat

namespace VerificationMemoryBudget

def new (maxBufferedBytes : Nat) : VerificationMemoryBudget := ⟨maxBufferedBytes, 0⟩

def tryReserve (bytes : Nat) (b : VerificationMemoryBudget) : Option VerificationMemoryBudget :=
  if bytes = 0 then some b
  else if bytes > b.maxBufferedBytes - b.bufferedBytes then none
  else some { b with bufferedBytes := b.bufferedBytes + bytes }

def release (bytes : Nat) (b : VerificationMemoryBudget) : VerificationMemoryBudget :=
  { b with bufferedBytes := b.bufferedBytes - bytes }

end VerificationMemoryBudget

/-- The two checksums of a byte string. -/
structure Hashes where
  crc32 : List UInt8 → UInt32
  md5 : List UInt8 → Digest

/-- The bytes the two hashers have been fed. -/
structure SliceChecksumState where
  fed : List UInt8

namespace SliceChecksumState

def new : SliceChecksumState := ⟨[]⟩

def update (data : List UInt8) (s : SliceChecksumState) : SliceChecksumState := ⟨s.fed ++ data⟩

def pad (padTo : Option Nat) (s : SliceChecksumState) : SliceChecksumState :=
  match padTo with
  | some target => s.update (List.replicate (target - s.fed.length) 0)
  | none => s

def finalize (hashes : Hashes) (padTo : Option Nat) (s : SliceChecksumState) : UInt32 × Digest :=
  (hashes.crc32 (s.pad padTo).fed, hashes.md5 (s.pad padTo).fed)

end SliceChecksumState

structure SliceFingerprint where
  crc32 : UInt32
  md5 : Digest
deriving DecidableEq

namespace SliceFingerprint

def ofChecksums (sums : UInt32 × Digest) : SliceFingerprint := ⟨sums.1, sums.2⟩

def fromData (hashes : Hashes) (data : List UInt8) (sliceSize : Nat) : SliceFingerprint :=
  let padTo := if data.length < sliceSize then some sliceSize else none
  ofChecksums ((SliceChecksumState.new.update data).finalize hashes padTo)

def isValidFor (expected : SliceChecksum) (f : SliceFingerprint) : Bool :=
  f.crc32 = expected.crc32 ∧ f.md5 = expected.md5

end SliceFingerprint

inductive SliceEvidenceStrength where
  | crc32Only
  | crc32AndMd5
deriving DecidableEq

structure InStreamCrc32Proof where
  coveredLength : Nat
deriving DecidableEq

structure SliceEvidence where
  recoverySetId : RecoverySetId
  fileId : FileId
  sliceIndex : Nat
  valid : Bool
  strength : SliceEvidenceStrength
  inStream : Option InStreamCrc32Proof
deriving DecidableEq

structure SettleRead where
  fileId : FileId
  sliceIndex : Nat
  offset : Nat
  length : Nat
deriving DecidableEq

/-- A slice index as the 32 bits of a report. -/
def reportedIndex (sliceIndex : Nat) : Nat := min sliceIndex (2 ^ 32 - 1)

def SettleRead.new (fileId : FileId) (sliceIndex offset length : Nat) : SettleRead :=
  ⟨fileId, reportedIndex sliceIndex, offset, length⟩

/-- The bytes of a slice that came in more than one range. -/
structure PartialSlice where
  expectedLen : Nat
  ranges : Runs UInt8
  bufferedBytes : Nat
  reservedBytes : Nat

namespace PartialSlice

def new (expectedLen : Nat) : PartialSlice := ⟨expectedLen, [], 0, 0⟩

def rangesBefore (stop : Nat) (p : PartialSlice) : Runs UInt8 := p.ranges.filter fun r => r.1 < stop

/-- Whether the new bytes agree with the buffered ones where they overlap. -/
def matchesRange (start : Nat) (data : List UInt8) (p : PartialSlice) : Bool :=
  let stop := start + data.length
  (p.rangesBefore stop).all fun r =>
    let rangeEnd := r.1 + r.2.length
    let overlapStart := max r.1 start
    let overlapEnd := min rangeEnd stop
    overlapStart ≥ overlapEnd ∨
      slice (overlapStart - r.1) (overlapEnd - r.1) r.2 = slice (overlapStart - start) (overlapEnd - start) data

def uncoveredLoop (stop : Nat) : Nat → Runs UInt8 → List (Nat × Nat)
  | cursor, [] => if cursor < stop then [(cursor, stop)] else []
  | cursor, r :: rest =>
    let rangeEnd := r.1 + r.2.length
    if rangeEnd ≤ cursor then uncoveredLoop stop cursor rest
    else
      let gapEnd := min r.1 stop
      let gap := if r.1 > cursor then [(cursor, gapEnd)] else []
      let cursor := if r.1 > cursor then gapEnd else cursor
      let cursor := max cursor (min rangeEnd stop)
      if cursor = stop then gap else gap ++ uncoveredLoop stop cursor rest

def uncoveredRanges (start stop : Nat) (p : PartialSlice) : List (Nat × Nat) :=
  uncoveredLoop stop start (p.rangesBefore stop)

/-- Stores the bytes of the gaps only. -/
def fillGaps (start : Nat) (data : List UInt8) (gaps : List (Nat × Nat)) (ranges : Runs UInt8) : Runs UInt8 :=
  gaps.foldl (fun ranges gap => ranges.insert gap.1 (slice (gap.1 - start) (gap.2 - start) data)) ranges

/-- Inserts the bytes not seen before, and gives their count unless a limit is hit. -/
def insert (start : Nat) (data : List UInt8) (budget : VerificationMemoryBudget) (p : PartialSlice) :
    Option (Nat × PartialSlice × VerificationMemoryBudget) :=
  let uncovered := p.uncoveredRanges start (start + data.length)
  if p.ranges.length + uncovered.length > maxPartialRangesPerSlice then none
  else
    let added := (uncovered.map fun gap => gap.2 - gap.1).sum
    let reservation := added + uncovered.length * partialRangeAccountingBytes
    match budget.tryReserve reservation with
    | none => none
    | some budget =>
      some (added,
        { p with
          ranges := fillGaps start data uncovered p.ranges
          bufferedBytes := p.bufferedBytes + added
          reservedBytes := p.reservedBytes + reservation },
        budget)

def isComplete (p : PartialSlice) : Bool := p.bufferedBytes = p.expectedLen

/-- Feeds the ranges in order, as long as each starts where the last one ended. -/
def feedRanges : Runs UInt8 → Nat → SliceChecksumState → Option (Nat × SliceChecksumState)
  | [], offset, state => some (offset, state)
  | r :: rest, offset, state =>
    if r.1 ≠ offset then none else feedRanges rest (offset + r.2.length) (state.update r.2)

def fingerprint (hashes : Hashes) (sliceSize : Nat) (p : PartialSlice) : Option SliceFingerprint :=
  if p.isComplete then
    match feedRanges p.ranges 0 .new with
    | none => none
    | some (offset, state) =>
      if offset ≠ p.expectedLen then none
      else
        let padTo := if p.expectedLen < sliceSize then some sliceSize else none
        some (.ofChecksums (state.finalize hashes padTo))
  else none

def settleReads (fileId : FileId) (sliceIndex sliceOffset : Nat) (p : PartialSlice) : List SettleRead :=
  (p.uncoveredRanges 0 p.expectedLen).map fun gap =>
    .new fileId sliceIndex (sliceOffset + gap.1) (gap.2 - gap.1)

end PartialSlice

structure FileVerificationState where
  partialSlices : Nat → Option PartialSlice
  verifiedSlices : List (Option Bool)
  fingerprints : List (Option SliceFingerprint)
  bytesReceived : Nat
  fileLength : Nat
  sliceSize : Nat

inductive SliceFeed where
  | verified (evidence : SliceEvidence)
  | buffered (reads : List SettleRead)
  | duplicate (reads : List SettleRead)
  | budgetExhausted (read : SettleRead)
  | conflict (read : SettleRead)
  | needsSettleRead (read : SettleRead)

/-- How many slices a file has. -/
def numSlices (fileLength sliceSize : Nat) : Nat :=
  if fileLength = 0 ∨ sliceSize = 0 then 0 else (fileLength + sliceSize - 1) / sliceSize

namespace FileVerificationState

def new (fileLength sliceSize : Nat) : FileVerificationState :=
  ⟨fun _ => none, List.replicate (numSlices fileLength sliceSize) none,
    List.replicate (numSlices fileLength sliceSize) none, 0, fileLength, sliceSize⟩

def sliceOffset (sliceIndex : Nat) (s : FileVerificationState) : Option Nat :=
  if sliceIndex * s.sliceSize < 2 ^ 64 then some (sliceIndex * s.sliceSize) else none

def sliceLen (sliceIndex : Nat) (s : FileVerificationState) : Option Nat :=
  match s.sliceOffset sliceIndex with
  | none => none
  | some offset => if offset < s.fileLength then some (min (s.fileLength - offset) s.sliceSize) else none

def evidence (recoverySetId : RecoverySetId) (fileId : FileId) (sliceIndex : Nat) (valid : Bool)
    (s : FileVerificationState) : SliceEvidence where
  recoverySetId := recoverySetId
  fileId := fileId
  sliceIndex := reportedIndex sliceIndex
  valid := valid
  strength := if (s.fingerprints[sliceIndex]?.join).isSome then .crc32AndMd5 else .crc32Only
  inStream := none

def fullSliceRead (fileId : FileId) (sliceIndex : Nat) (s : FileVerificationState) : SettleRead :=
  .new fileId sliceIndex ((s.sliceOffset sliceIndex).getD s.fileLength) ((s.sliceLen sliceIndex).getD 0)

def discardPartial (sliceIndex : Nat) (budget : VerificationMemoryBudget) (s : FileVerificationState) :
    FileVerificationState × VerificationMemoryBudget :=
  match s.partialSlices sliceIndex with
  | none => (s, budget)
  | some p => ({ s with partialSlices := Function.update s.partialSlices sliceIndex none }, budget.release p.reservedBytes)

/-- Records the fingerprint of a slice and its verdict. -/
def settle (recoverySetId : RecoverySetId) (fileId : FileId) (sliceIndex : Nat) (expected : SliceChecksum)
    (fingerprint : SliceFingerprint) (received : Nat) (s : FileVerificationState) : SliceFeed × FileVerificationState :=
  let valid := fingerprint.isValidFor expected
  let s := { s with
    verifiedSlices := s.verifiedSlices.set sliceIndex (some valid)
    fingerprints := s.fingerprints.set sliceIndex (some fingerprint)
    bytesReceived := s.bytesReceived + received }
  (.verified (s.evidence recoverySetId fileId sliceIndex valid), s)

end FileVerificationState

section Feeding
variable (hashes : Hashes) (recoverySetId : RecoverySetId) (fileId : FileId)

/-- The part of `feed_slice_range` for a piece that is the whole of an unsettled slice. -/
def feedWholeSlice (sliceIndex : Nat) (data : List UInt8) (expected : SliceChecksum) (state : FileVerificationState)
    (budget : VerificationMemoryBudget) : SliceFeed × FileVerificationState × VerificationMemoryBudget :=
  let fullRead := state.fullSliceRead fileId sliceIndex
  let sliceLen := (state.sliceLen sliceIndex).getD 0
  if (state.partialSlices sliceIndex).any fun p => !p.matchesRange 0 data then
    (.conflict fullRead, state.discardPartial sliceIndex budget)
  else
    let partialBytes := ((state.partialSlices sliceIndex).map (·.bufferedBytes)).getD 0
    let (state, budget) := if partialBytes ≠ 0 then state.discardPartial sliceIndex budget else (state, budget)
    let fingerprint := SliceFingerprint.fromData hashes data state.sliceSize
    let (feed, state) := state.settle recoverySetId fileId sliceIndex expected fingerprint (sliceLen - partialBytes)
    (feed, state, budget)

/-- The part of `feed_slice_range` for a piece of an unsettled slice. An entry made for a piece that a
limit then refuses is removed again. -/
def feedPartialSlice (sliceIndex sliceDataOffset : Nat) (data : List UInt8) (expected : SliceChecksum)
    (state : FileVerificationState) (budget : VerificationMemoryBudget) :
    Except Panic (SliceFeed × FileVerificationState × VerificationMemoryBudget) :=
  let fullRead := state.fullSliceRead fileId sliceIndex
  let sliceLen := (state.sliceLen sliceIndex).getD 0
  if (state.partialSlices sliceIndex).any fun p => !p.matchesRange sliceDataOffset data then
    .ok (.conflict fullRead, state.discardPartial sliceIndex budget)
  else
    match ((state.partialSlices sliceIndex).getD (.new sliceLen)).insert sliceDataOffset data budget with
    | none => .ok (.budgetExhausted fullRead, state, budget)
    | some (inserted, p, budget) =>
      if p.isComplete then
        match p.fingerprint hashes state.sliceSize with
        | none => .error .assertion
        | some fingerprint =>
          let state := { state with partialSlices := Function.update state.partialSlices sliceIndex none }
          let (feed, state) := state.settle recoverySetId fileId sliceIndex expected fingerprint inserted
          .ok (feed, state, budget.release p.reservedBytes)
      else
        let state := { state with
          partialSlices := Function.update state.partialSlices sliceIndex (some p)
          bytesReceived := state.bytesReceived + inserted }
        let reads := p.settleReads fileId sliceIndex ((state.sliceOffset sliceIndex).getD state.fileLength)
        .ok (if inserted = 0 then .duplicate reads else .buffered reads, state, budget)

def feedSliceRange (sliceIndex sliceDataOffset : Nat) (data : List UInt8) (wholeSlice : Bool) (expected : SliceChecksum)
    (state : FileVerificationState) (budget : VerificationMemoryBudget) :
    Except Panic (SliceFeed × FileVerificationState × VerificationMemoryBudget) :=
  let fullRead := state.fullSliceRead fileId sliceIndex
  match state.fingerprints[sliceIndex]? with
  | none => .error .assertion
  | some (some fingerprint) =>
    if wholeSlice then
      if fingerprint = .fromData hashes data state.sliceSize then .ok (.duplicate [], state, budget)
      else .ok (.conflict fullRead, state, budget)
    else .ok (.needsSettleRead fullRead, state, budget)
  | some none =>
    match state.verifiedSlices[sliceIndex]? with
    | none => .error .assertion
    | some (some _) => .ok (.needsSettleRead fullRead, state, budget)
    | some none =>
      if wholeSlice then .ok (feedWholeSlice hashes recoverySetId fileId sliceIndex data expected state budget)
      else feedPartialSlice hashes recoverySetId fileId sliceIndex sliceDataOffset data expected state budget

end Feeding

inductive FeedDisposition where
  | verified
  | buffered
  | duplicate
  | metadataPending
  | unknownFile
  | outOfRange
  | budgetExhausted
  | conflictingOverlap
  | needsSettleRead
deriving DecidableEq

structure FeedOutcome where
  disposition : FeedDisposition
  evidence : List SliceEvidence
  settleReads : List SettleRead
deriving DecidableEq

def FeedOutcome.new (disposition : FeedDisposition) : FeedOutcome := ⟨disposition, [], []⟩

/-- Adds the reads that are not there yet. -/
def appendSettleReads (target reads : List SettleRead) : List SettleRead :=
  reads.foldl (fun target read => if read ∈ target then target else target ++ [read]) target

/-- What the slices of one feed came to. -/
structure FeedTally where
  evidence : List SliceEvidence
  settleReads : List SettleRead
  sawVerified : Bool
  sawBuffered : Bool
  sawBudgetExhausted : Bool
  sawConflict : Bool
  sawNeedsSettleRead : Bool

namespace FeedTally

def start : FeedTally := ⟨[], [], false, false, false, false, false⟩

def add (t : FeedTally) : SliceFeed → FeedTally
  | .verified evidence => { t with sawVerified := true, evidence := t.evidence ++ [evidence] }
  | .buffered reads => { t with sawBuffered := true, settleReads := appendSettleReads t.settleReads reads }
  | .duplicate reads => { t with settleReads := appendSettleReads t.settleReads reads }
  | .budgetExhausted read =>
    { t with sawBudgetExhausted := true, settleReads := appendSettleReads t.settleReads [read] }
  | .conflict read => { t with sawConflict := true, settleReads := appendSettleReads t.settleReads [read] }
  | .needsSettleRead read =>
    { t with sawNeedsSettleRead := true, settleReads := appendSettleReads t.settleReads [read] }

def disposition (t : FeedTally) : FeedDisposition :=
  if t.sawConflict then .conflictingOverlap
  else if t.sawBudgetExhausted then .budgetExhausted
  else if t.sawNeedsSettleRead then .needsSettleRead
  else if t.sawVerified then .verified
  else if t.sawBuffered then .buffered
  else .duplicate

def outcome (t : FeedTally) : FeedOutcome := ⟨t.disposition, t.evidence, t.settleReads⟩

end FeedTally

/-- The slices of one feed in turn. -/
def feedLoop (hashes : Hashes) (recoverySetId : RecoverySetId) (fileId : FileId) (checksums : List SliceChecksum)
    (offset : Nat) (data : List UInt8) : List Nat → FeedTally → FileVerificationState → VerificationMemoryBudget →
    Except Panic (FeedOutcome × FileVerificationState × VerificationMemoryBudget)
  | [], tally, state, budget => .ok (tally.outcome, state, budget)
  | sliceIndex :: rest, tally, state, budget =>
    match state.sliceOffset sliceIndex, state.sliceLen sliceIndex with
    | some sliceOffset, some sliceLen =>
      match checksums[sliceIndex]? with
      | none => .ok (.new .metadataPending, state, budget)
      | some expected =>
        let rangeEnd := offset + data.length
        let pieceStart := max offset sliceOffset
        let pieceEnd := min rangeEnd (sliceOffset + sliceLen)
        let piece := slice (pieceStart - offset) (pieceEnd - offset) data
        let wholeSlice := decide (pieceStart = sliceOffset ∧ piece.length = sliceLen)
        match feedSliceRange hashes recoverySetId fileId sliceIndex (pieceStart - sliceOffset) piece wholeSlice expected
            state budget with
        | .error panic => .error panic
        | .ok (feed, state, budget) =>
          feedLoop hashes recoverySetId fileId checksums offset data rest (tally.add feed) state budget
    | _, _ =>
      feedLoop hashes recoverySetId fileId checksums offset data rest { tally with sawNeedsSettleRead := true } state
        budget

structure VerificationSession where
  par2Set : Option Par2FileSet
  fileStates : FileId → Option FileVerificationState
  memoryBudget : VerificationMemoryBudget

namespace VerificationSession

def withMemoryBudget (memoryBudget : VerificationMemoryBudget) : VerificationSession := ⟨none, fun _ => none, memoryBudget⟩

def initializeFileStates (s : VerificationSession) : VerificationSession :=
  match s.par2Set with
  | none => s
  | some set =>
    set.recoveryFileIds.foldl (fun s fileId =>
      match s.fileStates fileId, set.files.lookup fileId with
      | none, some desc =>
        { s with fileStates := Function.update s.fileStates fileId (some (.new desc.length set.sliceSize)) }
      | _, _ => s) s

def withPar2Set (set : Par2FileSet) (memoryBudget : VerificationMemoryBudget) : VerificationSession :=
  { withMemoryBudget memoryBudget with par2Set := some set }.initializeFileStates

def feedRange (hashes : Hashes) (fileId : FileId) (offset : Nat) (data : List UInt8) (s : VerificationSession) :
    Except Panic (FeedOutcome × VerificationSession) :=
  match s.par2Set with
  | none => .ok (.new .metadataPending, s)
  | some set =>
    match set.files.lookup fileId with
    | none => .ok (.new .unknownFile, s)
    | some desc =>
      match set.sliceChecksums.lookup fileId with
      | none => .ok (.new .metadataPending, s)
      | some checksums =>
        let rangeEnd := offset + data.length
        if set.sliceSize = 0 then .ok (.new .outOfRange, s)
        else if ¬ (rangeEnd < 2 ^ 64 ∧ offset ≤ desc.length ∧ rangeEnd ≤ desc.length) then .ok (.new .outOfRange, s)
        else if data = [] then .ok (.new .duplicate, s)
        else
          let state := (s.fileStates fileId).getD (.new desc.length set.sliceSize)
          let firstSlice := offset / set.sliceSize
          let lastSlice := (rangeEnd - 1) / set.sliceSize
          match feedLoop hashes set.recoverySetId fileId checksums offset data
              (List.range' firstSlice (lastSlice + 1 - firstSlice)) .start state s.memoryBudget with
          | .error panic => .error panic
          | .ok (outcome, state, budget) =>
            .ok (outcome,
              { s with fileStates := Function.update s.fileStates fileId (some state), memoryBudget := budget })

end VerificationSession
end Rarpar.Par2

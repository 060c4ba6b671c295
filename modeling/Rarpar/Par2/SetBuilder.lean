import Rarpar.Data.FirstWins
import Rarpar.Par2.Packet

namespace Rarpar.Par2

/-! `Par2FileSetBuilder`, and the merge of later packets into a set that was built. -/

inductive PacketAdmission where
  | retained
  | duplicate
  | rejected
deriving DecidableEq

/-! ### Names -/

/-- The translation of a PAR2 name to a safe relative path, which can fail. -/
abbrev Translation := String → Option String

/-- The renamed description and the names it replaced. -/
def FileDescription.adoptUnicodeName (translate : Translation) (description : FileDescription) (name : String) :
    Option (FileDescription × (String × String)) :=
  match translate name with
  | some filename => some ({ description with par2Name := name, filename := filename }, (description.par2Name, description.filename))
  | none => none

namespace UnicodeNames

def empty : UnicodeNames := ⟨.empty, .empty⟩

def wouldRetain (u : UnicodeNames) (packet : UnicodeFilenamePacket) : Bool :=
  packet.fileId ∉ u.names.keys ∧ u.names.keys.card < maxFilesPerSet

def add (u : UnicodeNames) (packet : UnicodeFilenamePacket) : PacketAdmission × UnicodeNames :=
  match u.names.lookup packet.fileId with
  | some (some name) =>
    if name = packet.name then (.duplicate, u)
    else (.rejected, { u with names := u.names.insert packet.fileId none })
  | some none => (.duplicate, u)
  | none =>
    if u.names.keys.card ≥ maxFilesPerSet then (.rejected, u)
    else (.retained, { u with names := u.names.insert packet.fileId (some packet.name) })

/-- The body of the loop of `apply` for a described file, with the names it replaced earlier. -/
def applyName (translate : Translation) (name : Option String) (description : FileDescription)
    (original : Option (String × String)) : FileDescription × Option (String × String) :=
  match name with
  | some name =>
    if description.par2Name ≠ name then
      match description.adoptUnicodeName translate name with
      | some (renamed, previous) => (renamed, original.or (some previous))
      | none => (description, original)
    else (description, original)
  | none =>
    match original with
    | some (par2Name, filename) => ({ description with par2Name := par2Name, filename := filename }, none)
    | none => (description, none)

/-- The loop of `apply`: each named file is looked at once. -/
def apply (translate : Translation) (u : UnicodeNames) (files : Table FileId FileDescription) :
    UnicodeNames × Table FileId FileDescription :=
  let result (file : FileId) : Option (FileDescription × Option (String × String)) :=
    (files.lookup file).map fun description =>
      match u.names.lookup file with
      | some name => applyName translate name description (u.originals.lookup file)
      | none => (description, u.originals.lookup file)
  ({ u with originals := .within (files.keys ∪ u.originals.keys) fun file =>
      match result file with
      | some (_, original) => original
      | none => u.originals.lookup file },
   .within files.keys fun file => (result file).map (·.1))

end UnicodeNames

/-! ### The budget of a load -/

structure PacketScanLimits where
  maxRetainedPackets : Nat
  maxRetainedMetadataBytes : Nat

def maxRecoveryExponent : Nat := 65535

def PacketScanLimits.default : PacketScanLimits :=
  ⟨2 + 2 * maxFilesPerSet + (maxRecoveryExponent + 1), 128 * 1024 * 1024⟩

structure PacketScanBudget where
  limits : PacketScanLimits
  retainedPackets : Nat
  retainedBytes : Nat

namespace PacketScanBudget

def new (limits : PacketScanLimits) : PacketScanBudget := ⟨limits, 0, 0⟩

def chargeRetained (budget : PacketScanBudget) (bytes : Nat) : Except Par2Error PacketScanBudget :=
  let packets := budget.retainedPackets + 1
  if packets > budget.limits.maxRetainedPackets then
    .error (.resourceLimitExceeded s!"retained {packets} PAR2 packets, limit is {budget.limits.maxRetainedPackets}")
  else
    let retained := budget.retainedBytes + bytes
    if retained > budget.limits.maxRetainedMetadataBytes then
      .error (.resourceLimitExceeded
        s!"retained {retained} bytes of PAR2 packet metadata, limit is {budget.limits.maxRetainedMetadataBytes}")
    else .ok { budget with retainedPackets := packets, retainedBytes := retained }

def releaseRetained (budget : PacketScanBudget) (bytes : Nat) : PacketScanBudget :=
  { budget with retainedPackets := budget.retainedPackets - 1, retainedBytes := budget.retainedBytes - bytes }

end PacketScanBudget

/-! ### The builder -/

/-- The description a packet gives. -/
def FileDescriptionPacket.description (fd : FileDescriptionPacket) : FileDescription :=
  ⟨fd.fileId, fd.hashFull, fd.hash16k, fd.fileLength, fd.par2Name, fd.filename⟩

def RecoverySlicePacket.slice (rs : RecoverySlicePacket) : RecoverySlice := ⟨rs.exponent, rs.data⟩

structure Par2FileSetBuilder where
  mainPacket : Option MainPacket
  files : Table FileId FileDescription
  sliceChecksums : Table FileId (List SliceChecksum)
  recoverySlices : Table Nat RecoverySlice
  creator : Option String
  unicodeNames : UnicodeNames

namespace Par2FileSetBuilder

def new : Par2FileSetBuilder := ⟨none, .empty, .empty, .empty, none, .empty⟩

def wouldRetain (b : Par2FileSetBuilder) : Packet → Bool
  | .main _ => b.mainPacket.isNone
  | .fileDescription desc => desc.fileId ∉ b.files.keys ∧ b.files.keys.card < maxFilesPerSet
  | .inputFileSliceChecksum ifsc => ifsc.fileId ∉ b.sliceChecksums.keys ∧ b.sliceChecksums.keys.card < maxFilesPerSet
  | .recoverySlice slice => slice.exponent ≤ maxRecoveryExponent ∧ slice.exponent ∉ b.recoverySlices.keys
  | .creator _ => b.creator.isNone
  | .unicodeFilename name => b.unicodeNames.wouldRetain name
  | .unknown _ _ => false

def addPacket (b : Par2FileSetBuilder) : Packet → Except Par2Error (PacketAdmission × Par2FileSetBuilder)
  | .main main =>
    match b.mainPacket with
    | some existing =>
      if existing.recoverySetId ≠ main.recoverySetId then .error .conflictingRecoverySet else .ok (.duplicate, b)
    | none => .ok (.retained, { b with mainPacket := some main })
  | .fileDescription fd =>
    if fd.fileId ∈ b.files.keys then .ok (.duplicate, b)
    else if b.files.keys.card ≥ maxFilesPerSet then .ok (.rejected, b)
    else .ok (.retained, { b with files := b.files.insert fd.fileId fd.description })
  | .inputFileSliceChecksum ifsc =>
    if ifsc.fileId ∈ b.sliceChecksums.keys then .ok (.duplicate, b)
    else if b.sliceChecksums.keys.card ≥ maxFilesPerSet then .ok (.rejected, b)
    else .ok (.retained, { b with sliceChecksums := b.sliceChecksums.insert ifsc.fileId ifsc.checksums })
  | .recoverySlice rs =>
    if rs.exponent > maxRecoveryExponent then .ok (.rejected, b)
    else if rs.exponent ∈ b.recoverySlices.keys then .ok (.duplicate, b)
    else .ok (.retained, { b with recoverySlices := b.recoverySlices.insert rs.exponent rs.slice })
  | .creator c =>
    if b.creator.isNone then .ok (.retained, { b with creator := some c.creatorId }) else .ok (.duplicate, b)
  | .unicodeFilename name =>
    let (admission, names) := b.unicodeNames.add name
    .ok (admission, { b with unicodeNames := names })
  | .unknown _ _ => .ok (.rejected, b)

/-- `add_packet_budgeted` for a packet from no scan, with the bytes that the packet's kind of value takes. -/
def addPacketBudgeted (retainedBytes : Packet → Nat) (state : Par2FileSetBuilder × PacketScanBudget) (packet : Packet) :
    Except Par2Error (Par2FileSetBuilder × PacketScanBudget) := do
  let (b, budget) := state
  if b.wouldRetain packet then
    let bytes := retainedBytes packet
    let budget ← budget.chargeRetained bytes
    let (admission, b) ← b.addPacket packet
    if admission = .retained then return (b, budget) else return (b, budget.releaseRetained bytes)
  else
    let (_, b) ← b.addPacket packet
    return (b, budget)

/-- The checksums a file of this length asks for. -/
def expectedChecksums (sliceSize length : Nat) : Nat := if length = 0 then 0 else (length + sliceSize - 1) / sliceSize

def build (translate : Translation) (b : Par2FileSetBuilder) : Except Par2Error Par2FileSet :=
  match b.mainPacket with
  | none => .error .noMainPacket
  | some main =>
    let (unicodeNames, files) := b.unicodeNames.apply translate b.files
    .ok
      { recoverySetId := main.recoverySetId
        sliceSize := main.sliceSize
        recoveryFileIds := main.recoveryFileIds
        nonRecoveryFileIds := main.nonRecoveryFileIds
        files := files
        sliceChecksums := b.sliceChecksums.retain fun file checksums =>
          match files.lookup file with
          | none => false
          | some desc => checksums.length = expectedChecksums main.sliceSize desc.length
        recoverySlices := b.recoverySlices.retain fun _ rs => rs.data.len = main.sliceSize
        creator := b.creator
        unicodeNames := unicodeNames }

end Par2FileSetBuilder

namespace Par2FileSet

def fromPackets (retainedBytes : Packet → Nat) (translate : Translation) (packets : List Packet) : Except Par2Error Par2FileSet := do
  let (b, _) ← packets.foldlM (Par2FileSetBuilder.addPacketBudgeted retainedBytes) (.new, .new .default)
  b.build translate

structure MergeResult where
  newRecoverySlices : Nat
  duplicatesIgnored : Nat

/-- One round of the loop of `merge_packets`. -/
def mergePacket (state : Par2FileSet × MergeResult) (packet : Packet) : Except Par2Error (Par2FileSet × MergeResult) :=
  let (set, result) := state
  let ignored := { result with duplicatesIgnored := result.duplicatesIgnored + 1 }
  match packet with
  | .main main =>
    if main.recoverySetId ≠ set.recoverySetId then .error .conflictingRecoverySet else .ok (set, ignored)
  | .fileDescription fd =>
    if fd.fileId ∉ set.files.keys then .ok ({ set with files := set.files.insert fd.fileId fd.description }, result)
    else .ok (set, ignored)
  | .inputFileSliceChecksum ifsc =>
    if ifsc.fileId ∉ set.sliceChecksums.keys then
      .ok ({ set with sliceChecksums := set.sliceChecksums.insert ifsc.fileId ifsc.checksums }, result)
    else .ok (set, ignored)
  | .recoverySlice rs =>
    if rs.exponent ∉ set.recoverySlices.keys then
      .ok ({ set with recoverySlices := set.recoverySlices.insert rs.exponent rs.slice },
        { result with newRecoverySlices := result.newRecoverySlices + 1 })
    else .ok (set, ignored)
  | .creator c =>
    if set.creator.isNone then .ok ({ set with creator := some c.creatorId }, result) else .ok (set, ignored)
  | .unicodeFilename name =>
    let (admission, names) := set.unicodeNames.add name
    .ok ({ set with unicodeNames := names }, if admission = .duplicate then ignored else result)
  | .unknown _ _ => .ok (set, result)

def mergePackets (translate : Translation) (set : Par2FileSet) (packets : List Packet) :
    Except Par2Error (Par2FileSet × MergeResult) := do
  if packets.any fun | .main main => decide (main.recoverySetId ≠ set.recoverySetId) | _ => false then
    throw .conflictingRecoverySet
  let (set, result) ← packets.foldlM mergePacket (set, ⟨0, 0⟩)
  let (names, files) := set.unicodeNames.apply translate set.files
  return ({ set with files := files, unicodeNames := names }, result)

/-- Later packets merged in part after part. -/
def mergeAll (translate : Translation) (set : Par2FileSet) (parts : List (List Packet)) : Except Par2Error Par2FileSet :=
  parts.foldlM (fun set part => (·.1) <$> set.mergePackets translate part) set

end Par2FileSet
end Rarpar.Par2

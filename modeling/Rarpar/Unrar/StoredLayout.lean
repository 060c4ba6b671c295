import Rarpar.Data.OrderedMap
import Rarpar.Data.Roster
import Rarpar.Data.Sweep

namespace Rarpar.Unrar

/-- `u64::MAX`. -/
def u64Max : Nat := 2 ^ 64 - 1

/-- `u32::MAX`. -/
def u32Max : Nat := 2 ^ 32 - 1

/-- `saturating_add` on a `u64`. -/
def saturatingAdd (a b : Nat) : Nat := min (a + b) u64Max

/-- `checked_add` on a `u64`. -/
def checkedAdd (a b : Nat) : Option Nat := if a + b ≤ u64Max then some (a + b) else none

/-- `saturating_add(1)` on a volume number. -/
def nextVolume (volume : Nat) : Nat := min (volume + 1) u32Max

inductive ArchiveFormat
  | rar14
  | rar4
  | rar5
deriving DecidableEq, Repr

def ArchiveFormat.isRar4Family : ArchiveFormat → Bool
  | rar14 | rar4 => true
  | rar5 => false

inductive Rar4EncryptionMethod
  | rar13
  | rar15
  | rar20
  | rar30
deriving DecidableEq, Repr

def Rar4EncryptionMethod.forUnpackVersion (unpackVersion : UInt8) : Rar4EncryptionMethod :=
  if unpackVersion = 13 then rar13
  else if unpackVersion = 15 then rar15
  else if unpackVersion = 20 ∨ unpackVersion = 26 then rar20
  else rar30

/-- `AES_BLOCK`. -/
def aesBlock : Nat := 16

/-- The declared size rounded up to a whole cipher block, when that fits. -/
def align16 (unpackedSize : Nat) : Option Nat :=
  let aligned := (unpackedSize + (aesBlock - 1)) / aesBlock * aesBlock
  if aligned ≤ u64Max then some aligned else none

def rar4UsesAes (format : ArchiveFormat) (unpackVersion : UInt8) : Bool :=
  format ≠ .rar14 && Rar4EncryptionMethod.forUnpackVersion unpackVersion == .rar30

/-- The file encryption record of a RAR5 header. -/
structure RarVolumeMemberEncryptionFacts where
  version : UInt64
  kdfCountLg2 : UInt8
  salt : Vector UInt8 16
  iv : Vector UInt8 16
  pswCheckPresent : Bool
  pswCheck : Option (Vector UInt8 12)
deriving DecidableEq

/-- What a header states about a member, as far as the layout reads it. -/
structure RarVolumeMemberFacts where
  name : String
  dataOffset : UInt64
  dataSize : UInt64
  unpackedSize : Option UInt64
  dataCrc32 : Option UInt32
  dataBlake2Hash : Option (Vector UInt8 32)
  useHashMac : Bool
  packedCrc32 : Option UInt32
  packedBlake2Hash : Option (Vector UInt8 32)
  packedHashUsesMac : Bool
  splitBefore : Bool
  splitAfter : Bool
  isDirectory : Bool
  isEncrypted : Bool
  redirectionType : Option UInt64
  compressionMethod : UInt8
  compressionVersion : UInt8
  compressionSolid : Bool
  encryption : Option RarVolumeMemberEncryptionFacts
  rar4Salt : Option (Vector UInt8 8)

structure RarVolumeFacts where
  format : UInt8
  members : List RarVolumeMemberFacts

def RarVolumeFacts.archiveFormat (facts : RarVolumeFacts) : ArchiveFormat :=
  if facts.format = 14 then .rar14 else if facts.format = 4 then .rar4 else .rar5

inductive MalformedReason
  | duplicatePartInVolume (volume : Nat)
  | overlappingParts (volume : Nat)
  | continuationInFirstVolume
  | unexpectedChainStart (volume : Nat)
  | unexpectedChainEnd (volume : Nat)
  | missingPartInAddedVolume (volume : Nat)
  | missingUnpackedSize
  | inconsistentUnpackedSize (first second : Nat)
  | mixedEncryption (volume : Nat)
  | sizeMismatch (packedTotal unpackedSize : Nat)
  | exceedsDeclaredSize (packedTotal unpackedSize : Nat)
deriving DecidableEq, Repr

inductive IneligibilityReason
  | compressed (packedBytes unpackedBytes : Option Nat) (totalsFinal : Bool)
  | encrypted
  | solid
  | directory
  | redirection
  | blake2OnlyNoCrc32
  | noChecksum
  | malformedChain (reason : MalformedReason)
deriving DecidableEq, Repr

structure EncryptedStore where
  format : ArchiveFormat
  crypt : Option RarVolumeMemberEncryptionFacts
  rar4Salt : Option (Vector UInt8 8)
  cipherSize : Option Nat
  tailPadding : Option Nat
  resolved : Bool
deriving DecidableEq

inductive MemberEligibility
  | directEligible
  | provisionallyDirect
  | encryptedStore (facts : EncryptedStore)
  | ineligible (reason : IneligibilityReason)
deriving DecidableEq

namespace MemberEligibility

def routesDirect : MemberEligibility → Bool
  | directEligible | provisionallyDirect | encryptedStore _ => true
  | ineligible _ => false

/-- `MemberEligibility::encrypted_store`. -/
def encryptedFacts : MemberEligibility → Option EncryptedStore
  | encryptedStore facts => some facts
  | _ => none

end MemberEligibility

/-- What one header states about its part's encryption. -/
structure PartEncryption where
  encrypted : Bool
  crypt : Option RarVolumeMemberEncryptionFacts
  rar4Salt : Option (Vector UInt8 8)
  rar4Version : Option UInt8
deriving DecidableEq

/-- The facts about a member the layout keeps of one volume. -/
structure MemberSnapshot where
  name : String
  dataOffset : Nat
  dataSize : Nat
  unpackedSize : Option Nat
  dataCrc32 : Option UInt32
  dataBlake2Hash : Option (Vector UInt8 32)
  dataHashUsesMac : Bool
  packedCrc32 : Option UInt32
  packedBlake2Hash : Option (Vector UInt8 32)
  packedHashUsesMac : Bool
  splitBefore : Bool
  splitAfter : Bool
  isDirectory : Bool
  isEncrypted : Bool
  isRedirection : Bool
  isStore : Bool
  isSolid : Bool
  encryption : PartEncryption
deriving DecidableEq

def MemberSnapshot.fromFacts (format : ArchiveFormat) (facts : RarVolumeMemberFacts) : MemberSnapshot where
  name := facts.name
  dataOffset := facts.dataOffset.toNat
  dataSize := facts.dataSize.toNat
  unpackedSize := facts.unpackedSize.map (·.toNat)
  dataCrc32 := facts.dataCrc32
  dataBlake2Hash := facts.dataBlake2Hash
  dataHashUsesMac := facts.useHashMac
  packedCrc32 := facts.packedCrc32
  packedBlake2Hash := facts.packedBlake2Hash
  packedHashUsesMac := facts.packedHashUsesMac
  splitBefore := facts.splitBefore
  splitAfter := facts.splitAfter
  isDirectory := facts.isDirectory
  isEncrypted := facts.isEncrypted
  isRedirection := facts.redirectionType.isSome
  isStore := facts.compressionMethod == 0
  isSolid := facts.compressionSolid
  encryption :=
    { encrypted := facts.isEncrypted
      crypt := facts.encryption
      rar4Salt := facts.rar4Salt
      rar4Version := if facts.isEncrypted && format.isRar4Family then some facts.compressionVersion else none }

structure StoredMemberPart where
  volume : Nat
  dataOffset : Nat
  dataSize : Nat
  logicalOffset : Option Nat
  packedCrc32 : Option UInt32
  packedBlake2Hash : Option (Vector UInt8 32)
  packedHashUsesMac : Bool
  splitBefore : Bool
  splitAfter : Bool
deriving DecidableEq

structure StoredMember where
  name : String
  firstVolume : Nat
  unpackedSize : Option Nat
  dataCrc32 : Option UInt32
  dataBlake2Hash : Option (Vector UInt8 32)
  dataHashUsesMac : Bool
  parts : List StoredMemberPart
  chainComplete : Bool
  eligibility : MemberEligibility
deriving DecidableEq

/-- How far the packed bytes may reach, where that is known. -/
def StoredMember.packedExtent (m : StoredMember) : Option Nat :=
  match m.eligibility.encryptedFacts with
  | some encrypted => encrypted.cipherSize
  | none => m.unpackedSize

structure VolumeSplitEvidence where
  continuedFromPrevious : List String
  continuesIntoNext : List String

/-- Where one run of physical bytes belongs; members are named by the elements of `ι`. -/
inductive MappedSlice (ι : Type)
  | member (memberIndex : ι) (logicalOffset len : Nat)
  | encryptedMember (memberIndex : ι) (logicalOffset len : Nat)
  | envelope (len : Nat)
  | unroutable (len : Nat)
deriving DecidableEq

inductive StoredLayoutError
  | conflictingVolume (volume : Nat)
  | formatMismatch (expected found : ArchiveFormat)
deriving DecidableEq

/-- What the parts of a member agree on about encryption. -/
inductive MemberEncryption
  | plain
  | uniform (crypt : Option RarVolumeMemberEncryptionFacts) (rar4Salt : Option (Vector UInt8 8))
  | mixed (volume : Nat)
  | unkeyable

/-- The packed range of a member in one volume. -/
structure VolumeExtent (ι : Type) where
  memberIndex : ι
  dataOffset : Nat
  dataSize : Nat

structure VolumeRecord where
  snapshots : List MemberSnapshot
  extents : List (VolumeExtent Nat)
  evidence : VolumeSplitEvidence

/-- Facts about a member that only accumulate. -/
structure MemberTraits where
  malformed : Option MalformedReason := none
  encrypted : Bool := false
  solid : Bool := false
  directory : Bool := false
  redirection : Bool := false
  compressed : Bool := false

/-- What the layout keeps of a member: its elements of the four parallel vectors of the builder. -/
structure MemberEntry where
  member : StoredMember
  traits : MemberTraits
  declarations : OrderedMap Nat
  encryptions : OrderedMap PartEncryption

/-- `ChainFacts`. -/
structure ChainFacts where
  format : ArchiveFormat
  malformed : Option MalformedReason
  complete : Bool
  packedTotal : Option Nat
  unpackedSize : Option Nat
  dataCrc32 : Option UInt32
  dataBlake2Hash : Option (Vector UInt8 32)

/-- The record and the salt that key an encrypted member. -/
abbrev KeyMaterial := Option RarVolumeMemberEncryptionFacts × Option (Vector UInt8 8)

namespace ChainFacts

/-- The sum of the parts, or the largest value where it does not fit. -/
def total (chain : ChainFacts) : Nat := chain.packedTotal.getD u64Max

/-- How far the packed bytes of the chain may reach. -/
def extent (chain : ChainFacts) (encrypted : Option KeyMaterial) : Option Nat :=
  match encrypted with
  | some _ => chain.unpackedSize.bind align16
  | none => chain.unpackedSize

/-- The state of a chain that routes: `encrypted_state`, or one of the two plain ones. -/
def state (chain : ChainFacts) (encrypted : Option KeyMaterial) (resolved : Bool) : MemberEligibility :=
  match encrypted with
  | some (crypt, rar4Salt) => .encryptedStore
    { format := chain.format
      crypt := crypt
      rar4Salt := rar4Salt
      cipherSize := chain.extent encrypted
      tailPadding := (chain.extent encrypted).bind fun cipher => chain.unpackedSize.map fun unpacked => cipher - unpacked
      resolved := resolved }
  | none => if resolved then .directEligible else .provisionallyDirect

end ChainFacts

/-- The classification of a `Store` chain that nothing else has disqualified. -/
def classifyStoredChain (chain : ChainFacts) (encrypted : Option KeyMaterial) : MemberEligibility :=
  match chain.unpackedSize.filter fun _ => (chain.extent encrypted).getD u64Max < chain.total with
  | some unpackedSize => .ineligible (.malformedChain (.exceedsDeclaredSize chain.total unpackedSize))
  | none =>
    if !chain.complete then chain.state encrypted false
    else match chain.unpackedSize with
      | none => .ineligible (.malformedChain .missingUnpackedSize)
      | some unpackedSize =>
        if chain.extent encrypted ≠ some chain.total then
          .ineligible (.malformedChain (.sizeMismatch chain.total unpackedSize))
        else match chain.dataCrc32, chain.dataBlake2Hash with
          | some _, _ => chain.state encrypted true
          | none, some _ => .ineligible .blake2OnlyNoCrc32
          | none, none => .ineligible .noChecksum

def classify (traits : MemberTraits) (chain : ChainFacts) (encryption : MemberEncryption) : MemberEligibility :=
  match chain.malformed with
  | some reason => .ineligible (.malformedChain reason)
  | none =>
    if traits.directory then .ineligible .directory
    else if traits.redirection then .ineligible .redirection
    else if traits.encrypted then
      match encryption with
      | .uniform crypt rar4Salt =>
        if traits.solid || traits.compressed then .ineligible .encrypted
        else classifyStoredChain chain (some (crypt, rar4Salt))
      | _ => .ineligible .encrypted
    else if traits.solid then .ineligible .solid
    else if traits.compressed then
      .ineligible (.compressed chain.packedTotal chain.unpackedSize chain.complete)
    else classifyStoredChain chain none

/-- The first violation of the split flags, by position in the chain. -/
def misplacedEnds (last : Nat) : Nat → List StoredMemberPart → Option MalformedReason
  | _, [] => none
  | position, part :: rest =>
    if !part.splitBefore && position ≠ 0 then some (.unexpectedChainStart part.volume)
    else if !part.splitAfter && position ≠ last then some (.unexpectedChainEnd part.volume)
    else misplacedEnds last (position + 1) rest

/-- The first added volume inside a hole of the chain. -/
def missingPart (added : Nat → Bool) : Nat → List StoredMemberPart → Option MalformedReason
  | _, [] => none
  | expectedVolume, part :: rest =>
    match (List.range' expectedVolume (part.volume - expectedVolume)).find? added with
    | some volume => some (.missingPartInAddedVolume volume)
    | none => missingPart added (nextVolume part.volume) rest

def chainMalformation (added : Nat → Bool) (parts : List StoredMemberPart) : Option MalformedReason :=
  match parts with
  | [] => none
  | first :: _ =>
    match misplacedEnds (parts.length - 1) 0 parts with
    | some reason => some reason
    | none =>
      if first.splitBefore && first.volume = 0 then some .continuationInFirstVolume
      else missingPart added first.volume parts

/-- What keys a member whose parts all state the same record. -/
def keyedBy (format : ArchiveFormat) (first : PartEncryption) : MemberEncryption :=
  if !first.encrypted then .plain
  else match format with
    | .rar5 => if first.crypt.isNone then .unkeyable else .uniform first.crypt first.rar4Salt
    | .rar4 | .rar14 =>
      if first.rar4Version.any (rar4UsesAes format) then .uniform first.crypt first.rar4Salt else .unkeyable

def memberEncryption (format : ArchiveFormat) (encryptions : OrderedMap PartEncryption) : MemberEncryption :=
  match encryptions with
  | [] => .plain
  | (_, first) :: records =>
    match records.find? fun record => record.2 ≠ first with
    | some (volume, _) => .mixed volume
    | none => keyedBy format first

/-- The logical offsets along the chain, and the one after its end. -/
def placeParts : Option Nat → Nat → List StoredMemberPart → List StoredMemberPart × Option Nat
  | running, _, [] => ([], running)
  | running, expectedVolume, part :: rest =>
    let running := if part.volume ≠ expectedVolume then none else running
    let tail := placeParts (running.bind (checkedAdd · part.dataSize)) (nextVolume part.volume) rest
    ({ part with logicalOffset := running } :: tail.1, tail.2)

def packedTotal (parts : List StoredMemberPart) : Option Nat :=
  parts.foldl (fun total part => total.bind (checkedAdd · part.dataSize)) (some 0)

/-- The offsets of a chain whose first part may start the member. -/
def placeChain (parts : List StoredMemberPart) : List StoredMemberPart × Option Nat :=
  let headKnown := parts.head?.any (!·.splitBefore)
  placeParts (if headKnown then some 0 else none) ((parts.head?.map (·.volume)).getD 0) parts

/-- Whether the chain runs from a known first part to a known last part. -/
def chainComplete (parts : List StoredMemberPart) : Bool :=
  (placeChain parts).2.isSome && parts.getLast?.any (!·.splitAfter)

/-- The declared size of the lowest volume that states one. -/
def declaredSize (declarations : OrderedMap Nat) : Option Nat := (declarations.map (·.2)).head?

def inconsistentSize (declarations : OrderedMap Nat) : Option MalformedReason :=
  match declarations.map (·.2) with
  | [] => none
  | first :: declared => (declared.find? (· ≠ first)).map fun second => .inconsistentUnpackedSize first second

def MemberEncryption.disagreement : MemberEncryption → Option MalformedReason
  | mixed volume => some (.mixedEncryption volume)
  | _ => none

namespace MemberEntry

def chainFacts (format : ArchiveFormat) (added : Nat → Bool) (e : MemberEntry) : ChainFacts where
  format := format
  malformed := e.traits.malformed.or ((chainMalformation added (placeChain e.member.parts).1).or
    ((inconsistentSize e.declarations).or (memberEncryption format e.encryptions).disagreement))
  complete := Unrar.chainComplete e.member.parts
  packedTotal := packedTotal e.member.parts
  unpackedSize := declaredSize e.declarations
  dataCrc32 := e.member.dataCrc32
  dataBlake2Hash := e.member.dataBlake2Hash

/-- `resolve_member`: offsets, completeness and classification from the facts of the entry. -/
def resolve (format : ArchiveFormat) (added : Nat → Bool) (e : MemberEntry) : MemberEntry :=
  { e with
    member :=
      { e.member with
        unpackedSize := declaredSize e.declarations
        eligibility := classify e.traits (e.chainFacts format added) (memberEncryption format e.encryptions)
        chainComplete := Unrar.chainComplete e.member.parts
        parts := (placeChain e.member.parts).1 } }

def memberSpans (volume : Nat) (e : MemberEntry) : Bool :=
  match e.member.parts.head?, e.member.parts.getLast? with
  | some first, some last => first.volume ≤ volume && volume ≤ last.volume
  | _, _ => false

/-- The entry pushed for a name not seen before. -/
def new (name : String) (volume : Nat) : MemberEntry where
  member :=
    { name := name
      firstVolume := volume
      unpackedSize := none
      dataCrc32 := none
      dataBlake2Hash := none
      dataHashUsesMac := false
      parts := []
      chainComplete := false
      eligibility := .provisionallyDirect }
  traits := {}
  declarations := []
  encryptions := []

def absorbTraits (snapshot : MemberSnapshot) (e : MemberEntry) : MemberEntry :=
  { e with
    traits :=
      { e.traits with
        encrypted := e.traits.encrypted || snapshot.isEncrypted
        solid := e.traits.solid || snapshot.isSolid
        directory := e.traits.directory || snapshot.isDirectory
        redirection := e.traits.redirection || snapshot.isRedirection
        compressed := e.traits.compressed || !snapshot.isStore } }

/-- `get_or_insert` of a reason. -/
def markMalformed (reason : MalformedReason) (e : MemberEntry) : MemberEntry :=
  { e with traits := { e.traits with malformed := some (e.traits.malformed.getD reason) } }

end MemberEntry

def MemberSnapshot.toPart (volume : Nat) (snapshot : MemberSnapshot) : StoredMemberPart where
  volume := volume
  dataOffset := snapshot.dataOffset
  dataSize := snapshot.dataSize
  logicalOffset := none
  packedCrc32 := snapshot.packedCrc32
  packedBlake2Hash := snapshot.packedBlake2Hash
  packedHashUsesMac := snapshot.packedHashUsesMac
  splitBefore := snapshot.splitBefore
  splitAfter := snapshot.splitAfter

/-- The insertion at the partition point of the volume number. -/
def insertPart (part : StoredMemberPart) (parts : List StoredMemberPart) : List StoredMemberPart :=
  parts.takeWhile (·.volume < part.volume) ++ part :: parts.dropWhile (·.volume < part.volume)

/-- What the first header of a name in a volume adds to its member. -/
def MemberEntry.addPart (volume : Nat) (snapshot : MemberSnapshot) (e : MemberEntry) : MemberEntry :=
  let member := { e.member with firstVolume := min e.member.firstVolume volume }
  let member := if snapshot.splitAfter then member else
    { member with
      dataCrc32 := snapshot.dataCrc32
      dataBlake2Hash := snapshot.dataBlake2Hash
      dataHashUsesMac := snapshot.dataHashUsesMac }
  { e with
    member := { member with parts := insertPart (snapshot.toPart volume) member.parts }
    declarations := match snapshot.unpackedSize with
      | some unpackedSize => e.declarations.insert volume unpackedSize
      | none => e.declarations
    encryptions := e.encryptions.insert volume snapshot.encryption }

/-- `member_index_for`. -/
def memberIndexFor (snapshot : MemberSnapshot) (volume : Nat) (entries : List MemberEntry) : Nat × List MemberEntry :=
  match Roster.position (·.member.name) snapshot.name entries with
  | some index => (index, entries)
  | none => (entries.length, entries ++ [MemberEntry.new snapshot.name volume])

/-- The state of the loop of `add_volume` over the headers. -/
structure HeaderPass where
  entries : List MemberEntry
  extents : List (VolumeExtent Nat)
  evidence : VolumeSplitEvidence
  namesHere : List String

def HeaderPass.step (volume : Nat) (p : HeaderPass) (snapshot : MemberSnapshot) : HeaderPass :=
  let evidence : VolumeSplitEvidence :=
    { continuedFromPrevious := p.evidence.continuedFromPrevious ++ (if snapshot.splitBefore then [snapshot.name] else [])
      continuesIntoNext := p.evidence.continuesIntoNext ++ (if snapshot.splitAfter then [snapshot.name] else []) }
  let (index, entries) := memberIndexFor snapshot volume p.entries
  let entries := entries.modify index (MemberEntry.absorbTraits snapshot)
  if snapshot.name ∈ p.namesHere then
    { p with
      evidence := evidence
      entries := entries.modify index (MemberEntry.markMalformed (.duplicatePartInVolume volume)) }
  else
    { evidence := evidence
      namesHere := snapshot.name :: p.namesHere
      entries := entries.modify index (MemberEntry.addPart volume snapshot)
      extents := p.extents ++ [⟨index, snapshot.dataOffset, snapshot.dataSize⟩] }

/-- The sweep of `add_volume`: the members whose extents overlap, as they are found. -/
def overlapMarks {ι : Type} : Option (Nat × ι) → List (VolumeExtent ι) → List ι
  | _, [] => []
  | covered, extent :: rest =>
    if extent.dataSize = 0 then overlapMarks covered rest
    else
      let extentEnd := saturatingAdd extent.dataOffset extent.dataSize
      match covered with
      | some (stop, owner) =>
        if extent.dataOffset < stop then
          owner :: extent.memberIndex ::
            overlapMarks (if extentEnd > stop then some (extentEnd, extent.memberIndex) else some (stop, owner)) rest
        else overlapMarks (some (extentEnd, extent.memberIndex)) rest
      | none => overlapMarks (some (extentEnd, extent.memberIndex)) rest

/-- `extents.sort_by_key`, which is stable. -/
def sortExtents {ι : Type} (extents : List (VolumeExtent ι)) : List (VolumeExtent ι) :=
  extents.insertionSort fun a b => a.dataOffset ≤ b.dataOffset

/-- The layout; `index` is the position of a name among the entries. -/
structure StoredLayoutBuilder where
  format : ArchiveFormat
  volumes : OrderedMap VolumeRecord
  entries : List MemberEntry
  frontier : Option Nat

/-- Append a slice, merging runs of the same kind outside of members. -/
def pushSlice {ι : Type} (slices : List (MappedSlice ι)) (slice : MappedSlice ι) : List (MappedSlice ι) :=
  match slices.getLast?, slice with
  | some (.envelope len), .envelope extra => slices.dropLast ++ [.envelope (saturatingAdd len extra)]
  | some (.unroutable len), .unroutable extra => slices.dropLast ++ [.unroutable (saturatingAdd len extra)]
  | _, _ => slices ++ [slice]

def pushMemberRun {ι : Type} (slices : List (MappedSlice ι)) (memberIndex : ι) (packedExtent : Option Nat)
    (encrypted : Bool) (logicalOffset : Option Nat) (runLen : Nat) : List (MappedSlice ι) :=
  let routed := (logicalOffset.map fun logicalOffset =>
    let limit := packedExtent.getD u64Max
    (logicalOffset, min runLen (limit - logicalOffset))).filter fun run => 0 < run.2
  match routed with
  | none => pushSlice slices (.unroutable runLen)
  | some (logicalOffset, len) =>
    let slices := pushSlice slices
      (if encrypted then .encryptedMember memberIndex logicalOffset len else .member memberIndex logicalOffset len)
    if len < runLen then pushSlice slices (.unroutable (runLen - len)) else slices

/-- The offset in the member of a position of the extent in its volume. -/
def StoredMember.offsetAt (m : StoredMember) (volume into : Nat) : Option Nat :=
  ((m.parts.find? (·.volume = volume)).bind (·.logicalOffset)).bind (checkedAdd · into)

/-- One run of `map_physical_range` inside an extent; `member` gives the record of the owner. -/
def pushRun {ι : Type} (member : ι → Option StoredMember) (volume cursor runLen : Nat) (extent : VolumeExtent ι)
    (slices : List (MappedSlice ι)) : List (MappedSlice ι) :=
  match (member extent.memberIndex).filter (·.eligibility.routesDirect) with
  | some m => pushMemberRun slices extent.memberIndex m.packedExtent m.eligibility.encryptedFacts.isSome
      (m.offsetAt volume (cursor - extent.dataOffset)) runLen
  | none => pushSlice slices (.envelope runLen)

/-- The loop of `map_physical_range` up to `stop`, and the run after the last extent. -/
def mapExtents {ι : Type} (member : ι → Option StoredMember) (volume stop : Nat) :
    List (VolumeExtent ι) → Nat → List (MappedSlice ι) → List (MappedSlice ι)
  | [], cursor, slices => if cursor < stop then pushSlice slices (.envelope (stop - cursor)) else slices
  | extent :: rest, cursor, slices =>
    if cursor ≥ stop then slices
    else if extent.dataSize = 0 then mapExtents member volume stop rest cursor slices
    else
      let extentEnd := saturatingAdd extent.dataOffset extent.dataSize
      if extentEnd ≤ cursor then mapExtents member volume stop rest cursor slices
      else if extent.dataOffset ≥ stop then pushSlice slices (.envelope (stop - cursor))
      else
        let slices := if extent.dataOffset > cursor then pushSlice slices (.envelope (extent.dataOffset - cursor)) else slices
        let cursor := max cursor extent.dataOffset
        let runEnd := min extentEnd stop
        mapExtents member volume stop rest runEnd (pushRun member volume cursor (runEnd - cursor) extent slices)

namespace StoredLayoutBuilder

def new (format : ArchiveFormat) : StoredLayoutBuilder := ⟨format, [], [], none⟩

def hasVolume (s : StoredLayoutBuilder) (volume : Nat) : Bool := (s.volumes.get volume).isSome

def headerFrontier (s : StoredLayoutBuilder) : Option Nat := s.frontier

def members (s : StoredLayoutBuilder) : List StoredMember := s.entries.map (·.member)

def splitEvidence (s : StoredLayoutBuilder) (volume : Nat) : Option VolumeSplitEvidence :=
  (s.volumes.get volume).map (·.evidence)

/-- The loop of `advance_frontier`; each turn passes one more volume. -/
def frontierFrom (added : Nat → Bool) : Nat → Nat → Nat
  | 0, frontier => frontier
  | fuel + 1, frontier =>
    if frontier + 1 ≤ u32Max ∧ added (frontier + 1) then frontierFrom added fuel (frontier + 1) else frontier

def advanceFrontier (s : StoredLayoutBuilder) : StoredLayoutBuilder :=
  if s.hasVolume 0 then
    { s with frontier := some (frontierFrom s.hasVolume s.volumes.length (s.frontier.getD 0)) }
  else s

/-- The loop of `add_volume` over the headers. -/
def headerPass (volume : Nat) (snapshots : List MemberSnapshot) (s : StoredLayoutBuilder) : HeaderPass :=
  snapshots.foldl (HeaderPass.step volume) ⟨s.entries, [], ⟨[], []⟩, []⟩

def newRecord (volume : Nat) (snapshots : List MemberSnapshot) (s : StoredLayoutBuilder) : VolumeRecord :=
  { snapshots := snapshots
    extents := sortExtents (s.headerPass volume snapshots).extents
    evidence := (s.headerPass volume snapshots).evidence }

/-- The entries with the headers absorbed and the overlaps marked. -/
def markedEntries (volume : Nat) (snapshots : List MemberSnapshot) (s : StoredLayoutBuilder) : List MemberEntry :=
  (overlapMarks none (s.newRecord volume snapshots).extents).foldl
    (fun entries index => entries.modify index (MemberEntry.markMalformed (.overlappingParts volume)))
    (s.headerPass volume snapshots).entries

/-- The part of `add_volume` after its checks. -/
def learn (volume : Nat) (snapshots : List MemberSnapshot) (s : StoredLayoutBuilder) : StoredLayoutBuilder :=
  let s := advanceFrontier
    { s with
      entries := s.markedEntries volume snapshots
      volumes := s.volumes.insert volume (s.newRecord volume snapshots) }
  { s with entries := s.entries.map fun e => if e.memberSpans volume then e.resolve s.format s.hasVolume else e }

def addVolume (volume : UInt32) (facts : RarVolumeFacts) (s : StoredLayoutBuilder) :
    Except StoredLayoutError StoredLayoutBuilder :=
  let found := facts.archiveFormat
  if found ≠ s.format then .error (.formatMismatch s.format found)
  else
    let snapshots := facts.members.map (MemberSnapshot.fromFacts found)
    match s.volumes.get volume.toNat with
    | some existing => if existing.snapshots = snapshots then .ok s else .error (.conflictingVolume volume.toNat)
    | none => .ok (s.learn volume.toNat snapshots)

def mapPhysicalRange (s : StoredLayoutBuilder) (volume offset len : Nat) : List (MappedSlice Nat) :=
  let stop := saturatingAdd offset len
  let len := stop - offset
  if len = 0 then []
  else match s.volumes.get volume with
    | none => [.unroutable len]
    | some record => mapExtents (fun index => s.members[index]?) volume stop record.extents offset []

end StoredLayoutBuilder
end Rarpar.Unrar

import Rarpar.Data.ByteParser
import Rarpar.Data.Utf8
import Rarpar.Par3.PacketHeader

namespace Rarpar.Par3
open Bytes ByteParser

/-! The bodies of packets, as they are parsed and written. Names are the bytes of their UTF-8 text. -/

/-! ### The cursor over a body -/

abbrev BodyReader (α : Type) := Parser Par3Error α

namespace BodyReader
variable (packet : String)

def malformed {α : Type} (reason : String) : BodyReader α := throw (.malformedPacket packet reason)

def take (count : Nat) : BodyReader (List UInt8) := do
  let c ← get
  if c.remaining < count then
    malformed packet s!"needs {count} more bytes at offset {c.pos}, {c.remaining} left"
  else
    set (c.skip count)
    return c.rest.take count

/-- A number of so many bytes: `u8`, `u16`, `u32` and `u64`. -/
def number (width : Nat) : BodyReader Nat := do
  let bytes ← take packet width
  return leNat bytes

def u8 : BodyReader Nat := number packet 1

def i8 : BodyReader Int8 := do
  let bytes ← take packet 1
  return (bytes.getD 0 0).toInt8

def u16 : BodyReader Nat := number packet 2

def u32 : BodyReader Nat := number packet 4

def u64 : BodyReader Nat := number packet 8

/-- An array of so many bytes. -/
def fixed (size : Nat) : BodyReader (Vector UInt8 size) := do
  let bytes ← take packet size
  return array size bytes 0

def fingerprint : BodyReader Fingerprint := fixed packet 16

def fingerprints (count : Nat) (what : String) : BodyReader (List Fingerprint) := do
  let c ← get
  if 2 ^ 64 ≤ count * 16 then malformed packet s!"{what} count {count} overflows the body length"
  else if c.remaining < count * 16 then
    malformed packet s!"{what} count {count} needs {count * 16} bytes, {c.remaining} left"
  else replicate (fingerprint packet) count

def rest : BodyReader (List UInt8) := do
  let c ← get
  set (c.skip c.remaining)
  return c.rest

def finish : BodyReader Unit := do
  let c ← get
  if c.remaining = 0 then return () else malformed packet s!"{c.remaining} trailing bytes"

/-- Run on a whole body. -/
def run {α : Type} (reader : BodyReader α) (body : List UInt8) : Except Par3Error α :=
  match reader ⟨body, 0⟩ with
  | .ok (a, _) => .ok a
  | .error e => .error e

theorem run_eq_ok {α : Type} {reader : BodyReader α} {body : List UInt8} {a : α} (ran : reader.run body = .ok a) :
    ∃ c, reader ⟨body, 0⟩ = .ok (a, c) := by
  unfold run at ran
  split at ran
  · grind
  · cases ran

end BodyReader

open BodyReader

def checkName (name : List UInt8) : Except Par3Error Unit :=
  if name = [] then .error (.unsafeName name "empty")
  else if name = [46] ∨ name = [46, 46] then .error (.unsafeName name "relative path component")
  else if 47 ∈ name then .error (.unsafeName name "contains a path separator")
  else if 92 ∈ name then .error (.unsafeName name "contains a backslash")
  else if 0 ∈ name then .error (.unsafeName name "contains a NUL byte")
  else .ok ()

def decodeName (bytes : List UInt8) (packet : String) : Except Par3Error (List UInt8) :=
  if Utf8.valid bytes = false then .error (.malformedPacket packet "name is not valid UTF-8")
  else
    match checkName bytes with
    | .error e => .error e
    | .ok () => .ok bytes

/-! ### Text, start and data -/

/-- The text of a Creator or Comment packet, kept as it was written. -/
structure TextPacket where
  bytes : List UInt8
deriving DecidableEq

def TextPacket.parse (body : List UInt8) : TextPacket := ⟨body⟩

def TextPacket.writeBody (packet : TextPacket) : List UInt8 := packet.bytes

structure GaloisField where
  size : Nat
  generator : Nat
deriving DecidableEq

structure StartPacket where
  parentInputSetId : InputSetId
  parentRootHash : Fingerprint
  blockSize : Nat
  galoisField : GaloisField
  legacyRandom : Option (Vector UInt8 8)
deriving DecidableEq

namespace StartPacket

/-- The body without the bytes of the generator. -/
def bodyBase : Nat := 8 + 16 + 8 + 1

/-- From this length on a body is read in the old form, with eight random bytes in front. -/
def legacyBodyMin : Nat := 8 + bodyBase

def reader (length : Nat) : BodyReader StartPacket := do
  let legacyRandom ← optional (legacyBodyMin ≤ length) (fixed "Start" 8)
  let parentInputSetId ← fixed "Start" 8
  let parentRootHash ← fingerprint "Start"
  let blockSize ← u64 "Start"
  let size ← u8 "Start"
  if 8 < size then malformed "Start" s!"Galois field size {size} exceeds 8 bytes"
  else
    let generator ← take "Start" size
    finish "Start"
    if parentInputSetId ≠ Vector.replicate 8 0 ∧ parentRootHash = Vector.replicate 16 0 then
      malformed "Start" s!"declares parent set {displayId parentInputSetId} but no parent Root packet hash"
    else return ⟨parentInputSetId, parentRootHash, blockSize, ⟨size, leNat generator⟩, legacyRandom⟩

def parse (body : List UInt8) : Except Par3Error StartPacket := (reader body.length).run body

def writeBody (packet : StartPacket) : List UInt8 :=
  encodeOption Vector.toList packet.legacyRandom ++
  packet.parentInputSetId.toList ++ packet.parentRootHash.toList ++ leBytes 8 packet.blockSize ++
  leBytes 1 packet.galoisField.size ++ (leBytes 8 packet.galoisField.generator).take packet.galoisField.size

end StartPacket

structure DataPacket where
  blockIndex : Nat
  data : List UInt8
deriving DecidableEq

namespace DataPacket

def reader : BodyReader DataPacket := do
  let blockIndex ← u64 "Data"
  let data ← rest
  return ⟨blockIndex, data⟩

def parse (body : List UInt8) : Except Par3Error DataPacket := reader.run body

def writeBody (packet : DataPacket) : List UInt8 := leBytes 8 packet.blockIndex ++ packet.data

end DataPacket

/-! ### Checksums of blocks -/

def checksumPairLen : Nat := 24

structure BlockChecksum where
  rollingHash : Nat
  fingerprint : Fingerprint
deriving DecidableEq

def BlockChecksum.reader (packet : String) : BodyReader BlockChecksum := do
  let rollingHash ← u64 packet
  let fingerprint ← BodyReader.fingerprint packet
  return ⟨rollingHash, fingerprint⟩

def BlockChecksum.write (checksum : BlockChecksum) : List UInt8 := leBytes 8 checksum.rollingHash ++ checksum.fingerprint.toList

/-- The checksums to the end of a body. -/
def checksumsToEnd (packet : String) : BodyReader (List BlockChecksum) := do
  let c ← get
  if c.remaining % checksumPairLen ≠ 0 then
    malformed packet s!"{c.remaining} checksum bytes is not a multiple of {checksumPairLen}"
  else toEnd (BlockChecksum.reader packet) c.remaining

structure ExternalDataPacket where
  firstBlockIndex : Nat
  checksums : List BlockChecksum
deriving DecidableEq

namespace ExternalDataPacket

def reader : BodyReader ExternalDataPacket := do
  let firstBlockIndex ← u64 "External Data"
  let checksums ← checksumsToEnd "External Data"
  return ⟨firstBlockIndex, checksums⟩

def parse (body : List UInt8) : Except Par3Error ExternalDataPacket := reader.run body

def writeBody (packet : ExternalDataPacket) : List UInt8 :=
  leBytes 8 packet.firstBlockIndex ++ packet.checksums.flatMap BlockChecksum.write

end ExternalDataPacket

/-! ### Matrices -/

structure BlockRange where
  first : Nat
  stop : Nat
deriving DecidableEq

def BlockRange.reader (packet : String) : BodyReader BlockRange := do
  let first ← u64 packet
  let stop ← u64 packet
  return ⟨first, stop⟩

def BlockRange.write (range : BlockRange) : List UInt8 := leBytes 8 range.first ++ leBytes 8 range.stop

structure CauchyMatrixPacket where
  range : BlockRange
  recoveryBlockHint : Nat
deriving DecidableEq

namespace CauchyMatrixPacket

def reader : BodyReader CauchyMatrixPacket := do
  let range ← BlockRange.reader "Cauchy Matrix"
  let recoveryBlockHint ← u64 "Cauchy Matrix"
  finish "Cauchy Matrix"
  return ⟨range, recoveryBlockHint⟩

def parse (body : List UInt8) : Except Par3Error CauchyMatrixPacket := reader.run body

def writeBody (packet : CauchyMatrixPacket) : List UInt8 := packet.range.write ++ leBytes 8 packet.recoveryBlockHint

end CauchyMatrixPacket

structure SparseRandomMatrixPacket where
  range : BlockRange
  maxRecoveryBlocks : Nat
  nonZeroPerInputBlock : Nat
  seed : Nat
deriving DecidableEq

namespace SparseRandomMatrixPacket

def reader : BodyReader SparseRandomMatrixPacket := do
  let range ← BlockRange.reader "Sparse Random Matrix"
  let maxRecoveryBlocks ← u64 "Sparse Random Matrix"
  let nonZeroPerInputBlock ← u64 "Sparse Random Matrix"
  let seed ← u64 "Sparse Random Matrix"
  finish "Sparse Random Matrix"
  return ⟨range, maxRecoveryBlocks, nonZeroPerInputBlock, seed⟩

def parse (body : List UInt8) : Except Par3Error SparseRandomMatrixPacket := reader.run body

def writeBody (packet : SparseRandomMatrixPacket) : List UInt8 :=
  packet.range.write ++ leBytes 8 packet.maxRecoveryBlocks ++ leBytes 8 packet.nonZeroPerInputBlock ++ leBytes 8 packet.seed

end SparseRandomMatrixPacket

structure ExplicitMatrixEntry where
  blockIndex : Nat
  factor : Nat
deriving DecidableEq

structure ExplicitMatrixPacket where
  factorSize : Nat
  entries : List ExplicitMatrixEntry
deriving DecidableEq

namespace ExplicitMatrixPacket

def entryReader (factorSize : Nat) : BodyReader ExplicitMatrixEntry := do
  let blockIndex ← u64 "Explicit Matrix"
  let stored ← take "Explicit Matrix" factorSize
  return ⟨blockIndex, leNat stored⟩

def writeEntry (factorSize : Nat) (entry : ExplicitMatrixEntry) : List UInt8 :=
  leBytes 8 entry.blockIndex ++ (leBytes 8 entry.factor).take factorSize

def reader (factorSize : Nat) : BodyReader ExplicitMatrixPacket := do
  let c ← get
  if factorSize = 0 ∨ 8 < factorSize then
    malformed "Explicit Matrix" s!"Galois field size {factorSize} cannot describe explicit factors"
  else if c.remaining % (8 + factorSize) ≠ 0 then
    malformed "Explicit Matrix" s!"body of {c.remaining} bytes is not a multiple of the {8 + factorSize}-byte entry"
  else
    let entries ← toEnd (entryReader factorSize) c.remaining
    return ⟨factorSize, entries⟩

def parse (body : List UInt8) (factorSize : Nat) : Except Par3Error ExplicitMatrixPacket := (reader factorSize).run body

def writeBody (packet : ExplicitMatrixPacket) : List UInt8 := packet.entries.flatMap (writeEntry packet.factorSize)

end ExplicitMatrixPacket

structure FftMatrixPacket where
  range : BlockRange
  maxRecoveryBlocksLog2 : Int8
  interleave : Nat
  interleaveLen : Nat
deriving DecidableEq

namespace FftMatrixPacket

def reader : BodyReader FftMatrixPacket := do
  let range ← BlockRange.reader "FFT Matrix"
  let maxRecoveryBlocksLog2 ← i8 "FFT Matrix"
  let c ← get
  if 8 < c.remaining then malformed "FFT Matrix" s!"interleave count of {c.remaining} bytes exceeds 8"
  else
    let interleave ← take "FFT Matrix" c.remaining
    return ⟨range, maxRecoveryBlocksLog2, leNat interleave, c.remaining⟩

def parse (body : List UInt8) : Except Par3Error FftMatrixPacket := reader.run body

def writeBody (packet : FftMatrixPacket) : List UInt8 :=
  packet.range.write ++ [packet.maxRecoveryBlocksLog2.toUInt8] ++ (leBytes 8 packet.interleave).take packet.interleaveLen

end FftMatrixPacket

/-! ### Recovery blocks -/

structure RecoveryDataPacket where
  rootHash : Fingerprint
  matrixHash : Fingerprint
  recoveryBlockIndex : Nat
  data : List UInt8
deriving DecidableEq

namespace RecoveryDataPacket

def reader : BodyReader RecoveryDataPacket := do
  let rootHash ← fingerprint "Recovery Data"
  let matrixHash ← fingerprint "Recovery Data"
  let recoveryBlockIndex ← u64 "Recovery Data"
  let data ← rest
  return ⟨rootHash, matrixHash, recoveryBlockIndex, data⟩

def parse (body : List UInt8) : Except Par3Error RecoveryDataPacket := reader.run body

def writeBody (packet : RecoveryDataPacket) : List UInt8 :=
  packet.rootHash.toList ++ packet.matrixHash.toList ++ leBytes 8 packet.recoveryBlockIndex ++ packet.data

end RecoveryDataPacket

structure RecoveryExternalDataPacket where
  rootHash : Fingerprint
  matrixHash : Fingerprint
  firstRecoveryBlockIndex : Nat
  checksums : List BlockChecksum
deriving DecidableEq

namespace RecoveryExternalDataPacket

def reader : BodyReader RecoveryExternalDataPacket := do
  let rootHash ← fingerprint "Recovery External Data"
  let matrixHash ← fingerprint "Recovery External Data"
  let firstRecoveryBlockIndex ← u64 "Recovery External Data"
  let checksums ← checksumsToEnd "Recovery External Data"
  return ⟨rootHash, matrixHash, firstRecoveryBlockIndex, checksums⟩

def parse (body : List UInt8) : Except Par3Error RecoveryExternalDataPacket := reader.run body

def writeBody (packet : RecoveryExternalDataPacket) : List UInt8 :=
  packet.rootHash.toList ++ packet.matrixHash.toList ++ leBytes 8 packet.firstRecoveryBlockIndex ++
    packet.checksums.flatMap BlockChecksum.write

end RecoveryExternalDataPacket

/-! ### The tree -/

/-- The option hashes and the child hashes of a Directory or Root packet. -/
def hashesToEnd (packet : String) : BodyReader (List Fingerprint × List Fingerprint) := do
  let optionCount ← u32 packet
  let optionHashes ← fingerprints packet optionCount "option"
  let c ← get
  if c.remaining % 16 ≠ 0 then malformed packet s!"{c.remaining} bytes of child hashes is not a multiple of 16"
  else
    let children ← fingerprints packet (c.remaining / 16) "child"
    return (optionHashes, children)

def writeHashes (optionHashes children : List Fingerprint) : List UInt8 :=
  leBytes 4 optionHashes.length ++ optionHashes.flatMap Vector.toList ++ children.flatMap Vector.toList

/-- The name in front of a File or Directory packet. -/
def nameReader (packet : String) : BodyReader (List UInt8) := do
  let nameLen ← u16 packet
  let bytes ← take packet nameLen
  match decodeName bytes packet with
  | .error e => throw e
  | .ok name => return name

structure DirectoryPacket where
  name : List UInt8
  optionHashes : List Fingerprint
  children : List Fingerprint
deriving DecidableEq

namespace DirectoryPacket

def reader : BodyReader DirectoryPacket := do
  let name ← nameReader "Directory"
  let (optionHashes, children) ← hashesToEnd "Directory"
  return ⟨name, optionHashes, children⟩

def parse (body : List UInt8) : Except Par3Error DirectoryPacket := reader.run body

def writeBody (packet : DirectoryPacket) : List UInt8 :=
  leBytes 2 packet.name.length ++ packet.name ++ writeHashes packet.optionHashes packet.children

end DirectoryPacket

structure RootPacket where
  lowestUnusedBlockIndex : Nat
  attributes : Nat
  optionHashes : List Fingerprint
  children : List Fingerprint
deriving DecidableEq

namespace RootPacket

/-- The one attribute bit the format defines. -/
def attributeAbsolutePath : Nat := 1

def reader : BodyReader RootPacket := do
  let lowestUnusedBlockIndex ← u64 "Root"
  let attributes ← u8 "Root"
  if attributes / 2 ≠ 0 then
    malformed "Root" s!"attribute byte 0x{hexByte attributes} sets bits the format reserves as zero"
  else
    let (optionHashes, children) ← hashesToEnd "Root"
    return ⟨lowestUnusedBlockIndex, attributes, optionHashes, children⟩

def parse (body : List UInt8) : Except Par3Error RootPacket := reader.run body

def writeBody (packet : RootPacket) : List UInt8 :=
  leBytes 8 packet.lowestUnusedBlockIndex ++ leBytes 1 packet.attributes ++ writeHashes packet.optionHashes packet.children

end RootPacket

/-- Shorter tails stand in the chunk description itself. -/
def tailHashLen : Nat := 40

inductive ChunkTail where
  | none
  | inline (bytes : List UInt8)
  | described (rollingHash : Nat) (fingerprint : Fingerprint) (blockIndex offset : Nat)
deriving DecidableEq

inductive ChunkDescription where
  | protectedChunk (length : Nat) (firstBlockIndex : Option Nat) (tail : ChunkTail)
  | unprotectedChunk (length : Nat)
deriving DecidableEq

structure FilePacket where
  name : List UInt8
  quickRollingHash : Nat
  fingerprint : Fingerprint
  optionHashes : List Fingerprint
  chunks : List ChunkDescription
deriving DecidableEq

def ChunkTail.reader (tailSize : Nat) : BodyReader ChunkTail :=
  if tailSize = 0 then return .none
  else if tailSize < tailHashLen then do
    let bytes ← take "File" tailSize
    return .inline bytes
  else do
    let rollingHash ← u64 "File"
    let fingerprint ← BodyReader.fingerprint "File"
    let blockIndex ← u64 "File"
    let offset ← u64 "File"
    return .described rollingHash fingerprint blockIndex offset

def ChunkTail.write : ChunkTail → List UInt8
  | .none => []
  | .inline bytes => bytes
  | .described rollingHash fingerprint blockIndex offset =>
    leBytes 8 rollingHash ++ fingerprint.toList ++ leBytes 8 blockIndex ++ leBytes 8 offset

namespace ChunkDescription

def reader (blockSize : Nat) : BodyReader ChunkDescription := do
  let length ← u64 "File"
  if length = 0 then
    let length ← u64 "File"
    return .unprotectedChunk length
  else if blockSize = 0 then malformed "File" "a protected chunk needs a block size greater than zero"
  else
    let firstBlockIndex ← optional (blockSize ≤ length) (u64 "File")
    let tail ← ChunkTail.reader (length % blockSize)
    return .protectedChunk length firstBlockIndex tail

def write : ChunkDescription → List UInt8
  | .unprotectedChunk length => leBytes 8 0 ++ leBytes 8 length
  | .protectedChunk length firstBlockIndex tail =>
    leBytes 8 length ++ encodeOption (leBytes 8) firstBlockIndex ++ tail.write

def length : ChunkDescription → Nat
  | .protectedChunk length _ _ => length
  | .unprotectedChunk length => length

end ChunkDescription

namespace FilePacket

def reader (blockSize : Nat) : BodyReader FilePacket := do
  let name ← nameReader "File"
  let quickRollingHash ← u64 "File"
  let fingerprint ← BodyReader.fingerprint "File"
  let optionCount ← u8 "File"
  let optionHashes ← fingerprints "File" optionCount "option"
  let c ← get
  let chunks ← toEnd (ChunkDescription.reader blockSize) c.remaining
  return ⟨name, quickRollingHash, fingerprint, optionHashes, chunks⟩

def parse (body : List UInt8) (blockSize : Nat) : Except Par3Error FilePacket := (reader blockSize).run body

/-- Names and option lists are cut to what their counts can say. -/
def writeBody (packet : FilePacket) : List UInt8 :=
  let name := packet.name.take 65535
  let options := packet.optionHashes.take 255
  leBytes 2 name.length ++ name ++ leBytes 8 packet.quickRollingHash ++ packet.fingerprint.toList ++
    leBytes 1 options.length ++ options.flatMap Vector.toList ++ packet.chunks.flatMap ChunkDescription.write

end FilePacket

/-! ### Any body -/

/-- What a parse knows of the input set. -/
structure ParseContext where
  blockSize : Option Nat
  galoisFieldSize : Option Nat
deriving DecidableEq

def ParseContext.new : ParseContext := ⟨none, none⟩

def ParseContext.fromStart (start : StartPacket) : ParseContext := ⟨some start.blockSize, some start.galoisField.size⟩

inductive PacketBody where
  | creator (packet : TextPacket)
  | comment (packet : TextPacket)
  | start (packet : StartPacket)
  | data (packet : DataPacket)
  | externalData (packet : ExternalDataPacket)
  | cauchyMatrix (packet : CauchyMatrixPacket)
  | sparseRandomMatrix (packet : SparseRandomMatrixPacket)
  | explicitMatrix (packet : ExplicitMatrixPacket)
  | fftMatrix (packet : FftMatrixPacket)
  | recoveryData (packet : RecoveryDataPacket)
  | recoveryExternalData (packet : RecoveryExternalDataPacket)
  | file (packet : FilePacket)
  | directory (packet : DirectoryPacket)
  | root (packet : RootPacket)
  | opaqueBody (packetType : PacketType) (body : List UInt8)
deriving DecidableEq

namespace PacketBody

def parse (packetType : PacketType) (body : List UInt8) (context : ParseContext) : Except Par3Error PacketBody :=
  match packetType with
  | .creator => .ok (.creator (.parse body))
  | .comment => .ok (.comment (.parse body))
  | .start => (StartPacket.parse body).map .start
  | .data => (DataPacket.parse body).map .data
  | .externalData => (ExternalDataPacket.parse body).map .externalData
  | .cauchyMatrix => (CauchyMatrixPacket.parse body).map .cauchyMatrix
  | .sparseRandomMatrix => (SparseRandomMatrixPacket.parse body).map .sparseRandomMatrix
  | .explicitMatrix =>
    match context.galoisFieldSize with
    | none => .error (.malformedPacket "Explicit Matrix" "needs the input set's Galois field size")
    | some size => (ExplicitMatrixPacket.parse body size).map .explicitMatrix
  | .fftMatrix => (FftMatrixPacket.parse body).map .fftMatrix
  | .recoveryData => (RecoveryDataPacket.parse body).map .recoveryData
  | .recoveryExternalData => (RecoveryExternalDataPacket.parse body).map .recoveryExternalData
  | .file =>
    match context.blockSize with
    | none => .error (.malformedPacket "File" "needs the input set's block size")
    | some blockSize => (FilePacket.parse body blockSize).map .file
  | .directory => (DirectoryPacket.parse body).map .directory
  | .root => (RootPacket.parse body).map .root
  | .link => .ok (.opaqueBody packetType body)
  | .unixPermissions => .ok (.opaqueBody packetType body)
  | .fatPermissions => .ok (.opaqueBody packetType body)
  | .unknown _ => .ok (.opaqueBody packetType body)

/-- Types that a Start packet has to be known for. -/
def needsContext (packetType : PacketType) : Bool := packetType = .file ∨ packetType = .explicitMatrix

def packetType : PacketBody → PacketType
  | creator _ => .creator
  | comment _ => .comment
  | start _ => .start
  | data _ => .data
  | externalData _ => .externalData
  | cauchyMatrix _ => .cauchyMatrix
  | sparseRandomMatrix _ => .sparseRandomMatrix
  | explicitMatrix _ => .explicitMatrix
  | fftMatrix _ => .fftMatrix
  | recoveryData _ => .recoveryData
  | recoveryExternalData _ => .recoveryExternalData
  | file _ => .file
  | directory _ => .directory
  | root _ => .root
  | opaqueBody packetType _ => packetType

def writeBody : PacketBody → List UInt8
  | creator packet => packet.writeBody
  | comment packet => packet.writeBody
  | start packet => packet.writeBody
  | data packet => packet.writeBody
  | externalData packet => packet.writeBody
  | cauchyMatrix packet => packet.writeBody
  | sparseRandomMatrix packet => packet.writeBody
  | explicitMatrix packet => packet.writeBody
  | fftMatrix packet => packet.writeBody
  | recoveryData packet => packet.writeBody
  | recoveryExternalData packet => packet.writeBody
  | file packet => packet.writeBody
  | directory packet => packet.writeBody
  | root packet => packet.writeBody
  | opaqueBody _ body => body

end PacketBody

/-! ### Whole packets -/

structure Packet where
  inputSetId : InputSetId
  hash : Fingerprint
  length : Nat
  body : PacketBody
deriving DecidableEq

namespace Packet

def new (fingerprint : Hash) (inputSetId : InputSetId) (body : PacketBody) : Packet :=
  let bytes := body.writeBody
  let length := headerSize + bytes.length
  ⟨inputSetId, computePacketHash fingerprint length inputSetId body.packetType bytes, length, body⟩

/-- The parse of one packet. A body that cannot be read is kept as it is. -/
def parse (fingerprint : Hash) (data : List UInt8) (offset : Nat) (context : ParseContext) : Except Par3Error Packet :=
  match PacketHeader.parse data offset with
  | .error e => .error e
  | .ok header =>
    if data.length < header.length then .error (.packetTooShort offset header.length data.length)
    else
      let packet := data.take header.length
      match header.validateHash fingerprint packet offset with
      | .error e => .error e
      | .ok () =>
        let bytes := packet.drop headerSize
        let body :=
          match PacketBody.parse header.packetType bytes context with
          | .ok body => body
          | .error _ => .opaqueBody header.packetType bytes
        .ok ⟨header.inputSetId, header.hash, header.length, body⟩

def toBytes (packet : Packet) : List UInt8 :=
  (PacketHeader.mk packet.hash packet.length packet.inputSetId packet.body.packetType).write ++ packet.body.writeBody

end Packet
end Rarpar.Par3

import Rarpar.Par2.FileSet

namespace Rarpar.Par2

/-! The packets of a PAR2 file once their bodies are parsed. -/

structure MainPacket where
  recoverySetId : RecoverySetId
  sliceSize : Nat
  recoveryFileIds : List FileId
  nonRecoveryFileIds : List FileId
  /-- The parser refuses slices of no bytes. -/
  sliceSize_pos : 0 < sliceSize
deriving DecidableEq

structure FileDescriptionPacket where
  fileId : FileId
  hashFull : Digest
  hash16k : Digest
  fileLength : Nat
  filename : String
  par2Name : String
  par2NameBytes : List UInt8
deriving DecidableEq

structure IfscPacket where
  fileId : FileId
  checksums : List SliceChecksum
deriving DecidableEq

structure RecoverySlicePacket where
  exponent : Nat
  data : RecoverySliceData
deriving DecidableEq

structure CreatorPacket where
  creatorId : String
deriving DecidableEq

structure UnicodeFilenamePacket where
  fileId : FileId
  name : String
deriving DecidableEq

inductive Packet where
  | main (packet : MainPacket)
  | fileDescription (packet : FileDescriptionPacket)
  | inputFileSliceChecksum (packet : IfscPacket)
  | recoverySlice (packet : RecoverySlicePacket)
  | creator (packet : CreatorPacket)
  | unicodeFilename (packet : UnicodeFilenamePacket)
  | unknown (packetType : Digest) (body : List UInt8)
deriving DecidableEq

end Rarpar.Par2

import Mathlib.Algebra.GroupWithZero.Nat
import Rarpar.Data.Table

namespace Rarpar.Par2

/-- A 16-byte MD5 digest. -/
abbrev Digest := Vector UInt8 16

abbrev FileId := Digest

abbrev RecoverySetId := Digest

structure SliceChecksum where
  crc32 : UInt32
  md5 : Digest
deriving DecidableEq

structure FileDescription where
  fileId : FileId
  hashFull : Digest
  hash16k : Digest
  length : Nat
  par2Name : String
  filename : String
deriving DecidableEq

inductive RecoverySliceData where
  | inMemory (data : List UInt8)
  | fileBacked (path : String) (offset len : Nat) (packetHash : Option Digest)
deriving DecidableEq

def RecoverySliceData.len : RecoverySliceData → Nat
  | .inMemory data => data.length
  | .fileBacked _ _ len _ => len

structure RecoverySlice where
  exponent : Nat
  data : RecoverySliceData
deriving DecidableEq

/-- The spellings that Unicode Filename packets carry. A name is `none` once two packets
disagree, and `originals` holds the replaced names. -/
structure UnicodeNames where
  names : Table FileId (Option String)
  originals : Table FileId (String × String)

structure Par2FileSet where
  recoverySetId : RecoverySetId
  sliceSize : Nat
  recoveryFileIds : List FileId
  nonRecoveryFileIds : List FileId
  files : Table FileId FileDescription
  sliceChecksums : Table FileId (List SliceChecksum)
  recoverySlices : Table Nat RecoverySlice
  creator : Option String
  unicodeNames : UnicodeNames

inductive Par2Error where
  | conflictingRecoverySet
  | noMainPacket
  | resourceLimitExceeded (reason : String)
  | insufficientRecoveryData (needed available deficit : Nat)
  | reedSolomonError (reason : String)
deriving DecidableEq

def maxSlicesPerFile : Nat := 32768

def maxTotalInputSlices : Nat := 32768

def maxFilesPerSet : Nat := 32768

/-- The slice count of a file, capped at the largest 32-bit index. -/
def Par2FileSet.sliceCountForFile (set : Par2FileSet) (fileLength : Nat) : Nat :=
  if fileLength = 0 ∨ set.sliceSize = 0 then 0
  else min ((fileLength + set.sliceSize - 1) / set.sliceSize) (2 ^ 32 - 1)

end Rarpar.Par2

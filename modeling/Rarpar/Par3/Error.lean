import Mathlib.Data.Nat.Notation

namespace Rarpar.Par3

/-- The errors of the modelled functions. -/
inductive Par3Error
  | unsupportedField (reason : String)
  | codecGeometry (reason : String)
  | codecBlock (index : Nat) (reason : String)
  | insufficientRecovery (lost available : Nat)
  | singularSystem
  | codecLimitExceeded (reason : String)
  | invalidMagic (offset : Nat)
  | packetTooShort (offset expected actual : Nat)
  | packetHashMismatch (offset : Nat)
  | malformedPacket (packet reason : String)
  | unsafeName (name : List UInt8) (reason : String)
  | scanLimitExceeded (reason : String)
  | missingChildPacket (inputSetId : Vector UInt8 8) (child : String)
  | duplicateName (name directory : List UInt8)
  | blockIndexOutOfRange (index blockCount : Nat)
  | cyclicDirectoryTree (inputSetId : Vector UInt8 8)
deriving DecidableEq, Repr

/-- The `{:#x}` format. -/
def hex (value : Nat) : String := "0x" ++ String.ofList (Nat.toDigits 16 value)

/-- Every byte in the `{:02x}` format. -/
def hexBytes (bytes : List UInt8) : String :=
  String.join (bytes.map fun byte => String.ofList [Nat.digitChar (byte.toNat / 16), Nat.digitChar (byte.toNat % 16)])

end Rarpar.Par3

import Mathlib.Init

namespace Rarpar

/-! The reflected CRC-32 of IEEE 802.3, bit by bit. -/

/-- One bit shifted out of the register. -/
def crc32Bit (register : Nat) : Nat :=
  if register % 2 = 1 then (register / 2) ^^^ 0xEDB88320 else register / 2

def crc32Byte (register : Nat) (byte : UInt8) : Nat :=
  crc32Bit (crc32Bit (crc32Bit (crc32Bit (crc32Bit (crc32Bit (crc32Bit (crc32Bit (register ^^^ byte.toNat))))))))

/-- The register after these bytes. -/
def crc32Register (bytes : List UInt8) : Nat := bytes.foldl crc32Byte 0xFFFFFFFF

def crc32 (bytes : List UInt8) : UInt32 := .ofNat (crc32Register bytes ^^^ 0xFFFFFFFF)

end Rarpar

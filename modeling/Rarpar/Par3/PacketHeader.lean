import Rarpar.Data.Bytes
import Rarpar.Par3.Error

namespace Rarpar.Par3
open Bytes
open List hiding Vector

/-! The 48-byte header of every packet. -/

/-- The first 16 bytes of a BLAKE3 digest. -/
abbrev Fingerprint := Vector UInt8 16

abbrev InputSetId := Vector UInt8 8

abbrev Signature := Vector UInt8 8

/-- The hash of a byte string. -/
abbrev Hash := List UInt8 → Fingerprint

/-- The `{:02x}` format. -/
def hexByte (value : Nat) : String := String.ofList [Nat.digitChar (value / 16), Nat.digitChar (value % 16)]

def displayId (id : InputSetId) : String := String.join (id.toList.map fun byte => hexByte byte.toNat)

/-- `PAR3`, a zero and `PKT`. -/
def magic : List UInt8 := [80, 65, 82, 51, 0, 80, 75, 84]

def headerSize : Nat := 48

/-- Where the hashed bytes of a packet begin. -/
def hashedFrom : Nat := 24

inductive PacketType where
  | creator
  | comment
  | start
  | data
  | externalData
  | cauchyMatrix
  | sparseRandomMatrix
  | explicitMatrix
  | fftMatrix
  | recoveryData
  | recoveryExternalData
  | file
  | directory
  | root
  | link
  | unixPermissions
  | fatPermissions
  | unknown (signature : Signature)
deriving DecidableEq

namespace PacketType

/-- `PAR `, three letters and a zero. -/
def parSignature (a b c : UInt8) : Signature := #v[80, 65, 82, 32, a, b, c, 0]

def signature : PacketType → Signature
  | creator => parSignature 67 82 69
  | comment => parSignature 67 79 77
  | start => parSignature 83 84 65
  | data => parSignature 68 65 84
  | externalData => parSignature 69 88 84
  | cauchyMatrix => parSignature 67 65 85
  | sparseRandomMatrix => parSignature 83 80 65
  | explicitMatrix => parSignature 69 88 80
  | fftMatrix => parSignature 70 70 84
  | recoveryData => parSignature 82 69 67
  | recoveryExternalData => parSignature 69 82 68
  | file => parSignature 70 73 76
  | directory => parSignature 68 73 82
  | root => parSignature 82 79 79
  | link => parSignature 76 78 75
  | unixPermissions => parSignature 85 78 88
  | fatPermissions => parSignature 70 65 84
  | unknown signature => signature

/-- The types `from_signature` tries, in its order. -/
def known : List PacketType :=
  [creator, comment, start, data, externalData, cauchyMatrix, sparseRandomMatrix, explicitMatrix, fftMatrix, recoveryData,
    recoveryExternalData, file, directory, root, link, unixPermissions, fatPermissions]

def fromSignature (s : Signature) : PacketType := (known.find? fun t => t.signature = s).getD (unknown s)

theorem signature_fromSignature (s : Signature) : (fromSignature s).signature = s := by
  unfold fromSignature
  rcases found : known.find? fun t => decide (t.signature = s) with _ | t
  · rw [found]
    rfl
  · have same := find?_some found
    rw [found]
    exact of_decide_eq_true same

end PacketType

structure PacketHeader where
  hash : Fingerprint
  length : Nat
  inputSetId : InputSetId
  packetType : PacketType
deriving DecidableEq

namespace PacketHeader

def parse (data : List UInt8) (offset : Nat) : Except Par3Error PacketHeader :=
  if data.length < headerSize then .error (.packetTooShort offset headerSize data.length)
  else if data.take 8 ≠ magic then .error (.invalidMagic offset)
  else
    let length := leNat ((data.drop 24).take 8)
    if length < headerSize then .error (.packetTooShort offset headerSize length)
    else .ok ⟨array 16 data 8, length, array 8 data 32, .fromSignature (array 8 data 40)⟩

def write (header : PacketHeader) : List UInt8 :=
  magic ++ header.hash.toList ++ leBytes 8 header.length ++ header.inputSetId.toList ++ header.packetType.signature.toList

def validateHash (fingerprint : Hash) (header : PacketHeader) (packet : List UInt8) (offset : Nat) : Except Par3Error Unit :=
  if packet.length ≠ header.length then .error (.packetTooShort offset header.length packet.length)
  else if fingerprint (packet.drop hashedFrom) = header.hash then .ok ()
  else .error (.packetHashMismatch offset)

end PacketHeader

def computePacketHash (fingerprint : Hash) (length : Nat) (inputSetId : InputSetId) (packetType : PacketType) (body : List UInt8) :
    Fingerprint :=
  fingerprint (leBytes 8 length ++ inputSetId.toList ++ packetType.signature.toList ++ body)

namespace PacketHeader
variable {data : List UInt8} {offset : Nat} {header : PacketHeader}

theorem parse_eq_ok : parse data offset = .ok header ↔ headerSize ≤ data.length ∧ data.take 8 = magic ∧
    headerSize ≤ leNat ((data.drop 24).take 8) ∧
    header = ⟨array 16 data 8, leNat ((data.drop 24).take 8), array 8 data 32, .fromSignature (array 8 data 40)⟩ := by
  unfold parse
  dsimp only
  split
  · rename_i short
    exact ⟨nofun, fun long => absurd long.1 (Nat.not_le.mpr short)⟩
  split
  · rename_i other
    exact ⟨nofun, fun long => absurd long.2.1 other⟩
  split
  · rename_i short
    exact ⟨nofun, fun long => absurd long.2.2.1 (Nat.not_le.mpr short)⟩
  · rename_i long same fits
    rw [Except.ok.injEq]
    exact ⟨fun ok => ⟨Nat.le_of_not_lt long, not_not.mp same, Nat.le_of_not_lt fits, ok.symm⟩, fun ok => ok.2.2.2.symm⟩

/-- A header that was parsed writes the bytes it was parsed from. -/
theorem write_parse (parsed : parse data offset = .ok header) : header.write = data.take headerSize := by
  obtain ⟨long, same, -, rfl⟩ := parse_eq_ok.mp parsed
  have enough : 48 ≤ data.length := long
  have number : leBytes 8 (leNat ((data.drop 24).take 8)) = (data.drop 24).take 8 := by
    have length : ((data.drop 24).take 8).length = 8 := by
      rw [length_take, length_drop]
      omega
    have round := leBytes_leNat ((data.drop 24).take 8)
    rw [length] at round
    exact round
  have cut (n k : Nat) : data.take n ++ (data.drop n).take k = data.take (n + k) := take_add.symm
  unfold write
  rw [PacketType.signature_fromSignature, number, toList_array (by omega), toList_array (by omega), toList_array (by omega), ← same]
  rw [cut 8 16, cut 24 8, cut 32 8, cut 40 8]
  rfl

theorem length_write (header : PacketHeader) : header.write.length = headerSize := by
  simp only [write, length_append, Vector.length_toList, length_leBytes]
  rfl

/-- Only the first 48 bytes matter, and the offset only for errors. -/
theorem parse_take {size : Nat} (long : headerSize ≤ size) (offset' : Nat) :
    parse (data.take size) offset = .ok header ↔ parse data offset' = .ok header := by
  have all : headerSize ≤ (data.take size).length ↔ headerSize ≤ data.length := by
    rw [length_take]
    omega
  have size48 : headerSize = 48 := rfl
  rw [parse_eq_ok, parse_eq_ok, all, take_take, drop_take, take_take, Nat.min_eq_left (by omega),
    Nat.min_eq_left (by omega), array_take (by omega), array_take (by omega), array_take (by omega)]

/-- A header that was written is read again, with any bytes behind it. -/
theorem parse_write (header : PacketHeader) (size : headerSize ≤ header.length) (small : header.length < 256 ^ 8) (offset : Nat)
    (tail : List UInt8) : parse (header.write ++ tail) offset =
      .ok { header with packetType := .fromSignature header.packetType.signature } := by
  have shape : header.write ++ tail = magic ++ (header.hash.toList ++ (leBytes 8 header.length ++ (header.inputSetId.toList ++
      (header.packetType.signature.toList ++ tail)))) := by
    simp only [write, append_assoc]
  have hash : array 16 (header.write ++ tail) 8 = header.hash := by
    rw [shape]
    exact array_middle rfl
  have length : leNat (((header.write ++ tail).drop 24).take 8) = header.length := by
    rw [shape, ← append_assoc, take_drop_middle (by rw [length_append, Vector.length_toList]; rfl) (length_leBytes _ _),
      leNat_leBytes small]
  have id : array 8 (header.write ++ tail) 32 = header.inputSetId := by
    rw [shape, ← append_assoc, ← append_assoc]
    exact array_middle (by rw [length_append, length_append, Vector.length_toList, length_leBytes]; rfl)
  have typed : array 8 (header.write ++ tail) 40 = header.packetType.signature := by
    rw [shape, ← append_assoc, ← append_assoc, ← append_assoc]
    exact array_middle (by
      rw [length_append, length_append, length_append, Vector.length_toList, Vector.length_toList, length_leBytes]
      rfl)
  refine parse_eq_ok.mpr ⟨?_, ?_, ?_, ?_⟩
  · rw [length_append, length_write]
    exact Nat.le_add_right _ _
  · rw [shape]
    rfl
  · rw [length]
    exact size
  · rw [hash, length, id, typed]

end PacketHeader
end Rarpar.Par3

import Rarpar.Data.Crc32
import Rarpar.Unrar.RecoveryRecord

namespace Rarpar.Unrar.Rr3

/-! The recovery record of RAR 2.9 to 4.x: a checksum for each sector and parity sectors that are sums of every so many. -/

abbrev sectorLen : Nat := 512

/-- Sectors read at a time. -/
def blockSectors : Nat := 2048

/-- Slots whose sums one pass holds. -/
def windowSlots : Nat := 4096

abbrev Sector := Vector UInt8 512

/-- `xor_into` on whole sectors. -/
def Sector.xor (a b : Sector) : Sector := Vector.zipWith (· ^^^ ·) a b

def Sector.zero : Sector := Vector.replicate 512 0

def sectorChecksum (sector : Sector) : UInt16 := (~~~ crc32 sector.toList).toUInt16

/-- A record whose counts agree with where it sits. -/
structure Record where
  headerOffset : Nat
  dataOffset : Nat
  sectors : Nat
  slots : Nat
  foundByScan : Bool
  slots_pos : 0 < slots
  sectors_pos : 0 < sectors
  sectors_eq : sectors = (headerOffset + sectorLen - 1) / sectorLen
  header_before : headerOffset < dataOffset

namespace Record

/-- The data area lies inside a volume of this length. -/
def Fits (record : Record) (len : Nat) : Prop := record.dataOffset + (2 * record.sectors + record.slots * sectorLen) ≤ len

def layout (record : Record) : RecoveryRecordLayout where
  format := .rar4
  protectedSize := record.headerOffset
  recordOffset := record.dataOffset
  recordSize := 2 * record.sectors + record.slots * sectorLen
  unitSize := sectorLen
  dataUnits := record.sectors
  parityUnits := record.slots
  foundByScan := record.foundByScan

/-- The start and end of a sector. -/
def sectorRange (record : Record) (index : Nat) : Nat × Nat :=
  (index * sectorLen, min (index * sectorLen + sectorLen) record.headerOffset)

def checksumAt (record : Record) (index : Nat) : Nat := record.dataOffset + 2 * index

def parityAt (record : Record) (slot : Nat) : Nat := record.dataOffset + 2 * record.sectors + slot * sectorLen

end Record

/-- A sector of a buffer, by `chunks_exact`. -/
def sectorIn (data : List UInt8) (k : Nat) : Sector := Vector.ofFn fun j => data.getD (k * sectorLen + j.val) 0

/-- A checksum of a buffer. -/
def sumIn (sums : List UInt8) (k : Nat) : UInt16 :=
  .ofNat ((sums.getD (2 * k) 0).toNat + 256 * (sums.getD (2 * k + 1) 0).toNat)

section Pass
variable {σ : Type}

/-- `SectorReader::for_each`, with the offset and length of every read of protected bytes. The fuel is the number of sectors. -/
def forEach (volume : List UInt8) (record : Record) (visit : σ → Nat → Sector → UInt16 → σ) :
    (fuel index stop : Nat) → σ → Except RarError (σ × List (Nat × Nat))
  | 0, _, _, s => .ok (s, [])
  | fuel + 1, index, stop, s =>
    if index < stop then do
      let count := min (stop - index) blockSectors
      let start := (record.sectorRange index).1
      let held := (record.sectorRange (index + count - 1)).2 - start
      let bytes ← readExactAt volume start held
      let data := bytes ++ List.replicate (count * sectorLen - held) 0
      let sums ← readExactAt volume (record.checksumAt index) (2 * count)
      let s := (List.range count).foldl (fun s k => visit s (index + k) (sectorIn data k) (sumIn sums k)) s
      let (s, reads) ← forEach volume record visit fuel (index + count) stop s
      .ok (s, (start, held) :: reads)
    else .ok (s, [])

/-- The rounds of a window over the volume. -/
def rounds (volume : List UInt8) (record : Record) (visit : σ → Nat → Sector → UInt16 → σ) (first last : Nat) :
    (fuel round : Nat) → σ → Except RarError (σ × List (Nat × Nat))
  | 0, _, s => .ok (s, [])
  | fuel + 1, round, s =>
    if round < record.sectors then do
      let start := min (round + first) record.sectors
      let stop := min (round + last) record.sectors
      let (s, reads) ← forEach volume record visit (stop - start) start stop s
      let (s, later) ← rounds volume record visit first last fuel (round + record.slots) s
      .ok (s, reads ++ later)
    else .ok (s, [])

end Pass

/-- What a pass knows of one parity slot. -/
inductive Slot where
  | clean
  | one (index : Nat) (stored : UInt16) (bytes : Sector)
  | many
deriving DecidableEq

/-- The sums, the states of the slots and the damaged sectors of a pass. -/
structure Pass where
  acc : Nat → Sector
  state : Nat → Slot
  damaged : List Nat

def Pass.new : Pass := ⟨fun _ => .zero, fun _ => .clean, []⟩

/-- The closure `visit` of `examine_slots`. -/
def Pass.visit (slotOf : Nat → Nat) (pass : Pass) (index : Nat) (sector : Sector) (stored : UInt16) : Pass :=
  let slot := slotOf index
  if sectorChecksum sector = stored then { pass with acc := Function.update pass.acc slot ((pass.acc slot).xor sector) }
  else
    { pass with
      damaged := pass.damaged ++ [index]
      state := Function.update pass.state slot
        (match pass.state slot with
        | .clean => .one index stored sector
        | _ => .many) }

namespace Record
variable (record : Record)

/-- What the end of `examine_slots` makes of one slot. -/
def settle (rebuild : Bool) (out : Examination) (slot : Nat) (state : Slot) (acc parity : Sector) : Examination :=
  match state with
  | .clean =>
    if acc ≠ parity then { out with assessment.damagedParity := out.assessment.damagedParity ++ [slot] } else out
  | .many => out
  | .one index stored bytes =>
    let acc := acc.xor parity
    if acc = bytes then { out with assessment.damagedChecksums := out.assessment.damagedChecksums ++ [index] }
    else
      let out := { out with assessment.damagedUnits := out.assessment.damagedUnits ++ [index] }
      if sectorChecksum acc ≠ stored then
        { out with assessment.unrepairableUnits := out.assessment.unrepairableUnits ++ [index] }
      else if rebuild then
        let (start, stop) := record.sectorRange index
        { out with patches := out.patches ++ [⟨index, start, acc.toList.take (stop - start)⟩] }
      else out

/-- The place of a sector's slot in a window. -/
def slotOf (first index : Nat) : Nat := index % record.slots - first

/-- The pass of `examine_slots` over the volume. -/
def passOver (volume : List UInt8) (first last : Nat) : Except RarError (Pass × List (Nat × Nat)) :=
  if last - first = record.slots then forEach volume record (Pass.visit (record.slotOf first)) record.sectors 0 record.sectors .new
  else rounds volume record (Pass.visit (record.slotOf first)) first last record.sectors 0 .new

/-- `examine_slots`, with the reads of protected bytes. -/
def examineSlots (volume : List UInt8) (first last : Nat) (rebuild : Bool) (out : Examination) :
    Except RarError (Examination × List (Nat × Nat)) := do
  let width := last - first
  let (pass, reads) ← record.passOver volume first last
  let parity ← readExactAt volume (record.parityAt first) (width * sectorLen)
  let out := (List.range width).foldl (fun out slot =>
    record.settle rebuild out (first + slot) (pass.state slot) (pass.acc slot) (sectorIn parity slot)) out
  let out := pass.damaged.foldl (fun (out : Examination) index =>
    if pass.state (record.slotOf first index) = .many then
      { out with assessment := { out.assessment with
          damagedUnits := out.assessment.damagedUnits ++ [index]
          unrepairableUnits := out.assessment.unrepairableUnits ++ [index] } }
    else out) out
  .ok (out, reads)

/-- The windows from a slot on. The fuel is the number of slots. -/
def windows (volume : List UInt8) (rebuild : Bool) (window : Nat) :
    (fuel first : Nat) → Examination → Except RarError (Examination × List (Nat × Nat))
  | 0, _, out => .ok (out, [])
  | fuel + 1, first, out =>
    if first < record.slots then do
      let last := min record.slots (first + window)
      let (out, reads) ← record.examineSlots volume first last rebuild out
      let (out, later) ← windows volume rebuild window fuel last out
      .ok (out, reads ++ later)
    else .ok (out, [])

def examineInWindows (volume : List UInt8) (rebuild : Bool) (window : Nat) : Except RarError (Examination × List (Nat × Nat)) :=
  record.windows volume rebuild window record.slots 0 (.new record.layout)

def examine (volume : List UInt8) (rebuild : Bool) : Except RarError (Examination × List (Nat × Nat)) :=
  record.examineInWindows volume rebuild windowSlots

end Record
end Rarpar.Unrar.Rr3

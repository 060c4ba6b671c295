import Mathlib.Data.List.Basic

namespace Rarpar.Unrar

inductive FilterType where
  | delta
  | e8
  | e8e9
  | arm
  /-- The covered block is consumed without output. -/
  | unsupported (code : Nat)
deriving DecidableEq, Repr

namespace FilterType

/-- Parses the 3-bit code. -/
def fromCode : Nat → FilterType
  | 0 => .delta
  | 1 => .e8
  | 2 => .e8e9
  | 3 => .arm
  | code => .unsupported code

def emitsOutput : FilterType → Bool
  | .unsupported _ => false
  | _ => true

end FilterType

/-- A filter that waits for the bytes of its block, by absolute output offset. -/
structure PendingFilter where
  filterType : FilterType
  blockStart : Nat
  blockLength : Nat
  channels : Nat
deriving DecidableEq, Repr

namespace PendingFilter

def blockEnd (f : PendingFilter) : Nat := f.blockStart + f.blockLength

end PendingFilter

/-- Behind the last filter that does not start after the new one. -/
def queuePosition (filters : List PendingFilter) (filter : PendingFilter) : Nat :=
  match filters.reverse.findIdx? (fun pending => decide (pending.blockStart ≤ filter.blockStart)) with
  | some fromEnd => filters.length - 1 - fromEnd + 1
  | none => 0

/-- Keeps the queue ordered by `blockStart`. -/
def pushPendingFilter (filters : List PendingFilter) (filter : PendingFilter) : List PendingFilter :=
  if queuePosition filters filter = filters.length then filters ++ [filter]
  else filters.insertIdx (queuePosition filters filter) filter

/-- The loop over one channel: source position, running value, destination. -/
def deltaChannel (src : List UInt8) (channels : Nat) : Nat → Nat → UInt8 → Nat → List UInt8 → Nat × List UInt8
  | 0, srcPos, _, _, data => (srcPos, data)
  | fuel + 1, srcPos, prev, dest, data =>
    if dest < data.length then
      let prev := prev - src.getD srcPos 0
      deltaChannel src channels fuel (srcPos + 1) prev (dest + channels) (data.set dest prev)
    else (srcPos, data)

/-- Undoes the subtraction and the grouping by channel. -/
def applyDelta (data : List UInt8) (channels : Nat) : List UInt8 :=
  if channels = 0 then data
  else
    ((List.range channels).foldl
      (fun state channel => deltaChannel data channels data.length state.1 0 channel state.2) (0, data)).2

inductive X86FilterOffsetMode where
  | rar5 (fileOffset : Nat)
  | rar4 (fileOffset : UInt32)

/-- `FILE_SIZE` of the x86 filters. -/
def x86FileSize : UInt32 := 0x01000000

def X86FilterOffsetMode.addressOffset (addressStart : Nat) : X86FilterOffsetMode → UInt32
  | .rar5 fileOffset => UInt32.ofNat (addressStart + fileOffset) % x86FileSize
  | .rar4 fileOffset => fileOffset + UInt32.ofNat addressStart

/-- `u32::from_le_bytes` of the four bytes at `i`. -/
def loadLe32 (data : List UInt8) (i : Nat) : UInt32 :=
  (data.getD i 0).toUInt32 ||| ((data.getD (i + 1) 0).toUInt32 <<< 8) |||
    ((data.getD (i + 2) 0).toUInt32 <<< 16) ||| ((data.getD (i + 3) 0).toUInt32 <<< 24)

/-- Stores the low `count` bytes of a word, least significant first. -/
def storeLe (data : List UInt8) (i : Nat) (value : UInt32) (count : Nat) : List UInt8 :=
  (List.range count).foldl (fun data k => data.set (i + k) (value >>> UInt32.ofNat (8 * k)).toUInt8) data

/-- The scan for call and jump opcodes from `i` on. -/
def e8e9Loop (offsetMode : X86FilterOffsetMode) (includeE9 : Bool) : Nat → Nat → List UInt8 → List UInt8
  | 0, _, data => data
  | fuel + 1, i, data =>
    let lastStart := data.length - 4
    if i < lastStart then
      match ((data.drop i).take (lastStart - i)).findIdx? (fun b => b == 0xE8 || (includeE9 && b == 0xE9)) with
      | none => data
      | some found =>
        let i := i + found
        let addr := loadLe32 data (i + 1)
        let offset := offsetMode.addressOffset (i + 1)
        let data :=
          if addr &&& 0x80000000 ≠ 0 then
            if (addr + offset) &&& 0x80000000 = 0 then storeLe data (i + 1) (addr + x86FileSize) 4 else data
          else if (addr - x86FileSize) &&& 0x80000000 ≠ 0 then storeLe data (i + 1) (addr - offset) 4
          else data
        e8e9Loop offsetMode includeE9 fuel (i + 5) data
    else data

def applyE8E9Inner (data : List UInt8) (offsetMode : X86FilterOffsetMode) (includeE9 : Bool) : List UInt8 :=
  if data.length < 5 then data else e8e9Loop offsetMode includeE9 data.length 0 data

def applyE8 (data : List UInt8) (fileOffset : Nat) : List UInt8 := applyE8E9Inner data (.rar5 fileOffset) false

def applyE8E9 (data : List UInt8) (fileOffset : Nat) : List UInt8 := applyE8E9Inner data (.rar5 fileOffset) true

/-- The loop over aligned instructions from `i` on. -/
def armLoop (fileOffset : Nat) : Nat → Nat → List UInt8 → List UInt8
  | 0, _, data => data
  | fuel + 1, i, data =>
    if i + 3 < data.length then
      if data.getD (i + 3) 0 = 0xEB then
        let offset := loadLe32 data i &&& 0x00FFFFFF
        let curPos := (UInt32.ofNat fileOffset + UInt32.ofNat i) / 4
        armLoop fileOffset fuel (i + 4) (storeLe data i ((offset - curPos) &&& 0x00FFFFFF) 3)
      else armLoop fileOffset fuel (i + 4) data
    else data

def applyArm (data : List UInt8) (fileOffset : Nat) : List UInt8 :=
  if data.length < 4 then data else armLoop fileOffset data.length 0 data

namespace PendingFilter

/-- The dispatch on the filter type of the flush. -/
def apply (f : PendingFilter) (fileBlockStart : Nat) (block : List UInt8) : List UInt8 :=
  match f.filterType with
  | .delta => applyDelta block f.channels
  | .e8 => applyE8 block fileBlockStart
  | .e8e9 => applyE8E9 block fileBlockStart
  | .arm => applyArm block fileBlockStart
  | .unsupported _ => block

/-- What the block adds to the output. -/
def output (f : PendingFilter) (fileBlockStart : Nat) (block : List UInt8) : List UInt8 :=
  if f.filterType.emitsOutput then f.apply fileBlockStart block else []

/-- Filters whose result depends on where in the file their block lies. -/
def usesOffset (f : PendingFilter) : Bool :=
  match f.filterType with
  | .e8 | .e8e9 | .arm => true
  | .delta | .unsupported _ => false

theorem output_of_not_usesOffset {f : PendingFilter} (plain : f.usesOffset = false) (a b : Nat) (block : List UInt8) :
    f.output a block = f.output b block := by
  unfold usesOffset at plain
  unfold output apply FilterType.emitsOutput
  cases kind : f.filterType <;> rw [kind] at plain <;> first | rfl | cases plain

end PendingFilter

example : applyDelta [246, 251, 249, 236, 253, 255] 2 = [10, 20, 15, 23, 22, 24] := by decide

example : applyE8 [0xE8, 100, 0, 0, 0, 7] 0 = [0xE8, 99, 0, 0, 0, 7] := by decide

end Rarpar.Unrar

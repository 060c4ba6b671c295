import Rarpar.Par3.Gf

namespace Rarpar.Par3

structure CodecLimits where
  maxBufferBytes : Nat
  maxLostBlocks : Nat

/-- `CodecLimits::default()`. -/
def CodecLimits.default : CodecLimits := ⟨1 <<< 30, 4096⟩

/-- The result of a checked `u64` operation. -/
def checked (value : Nat) : Option Nat := if value < 2 ^ 64 then some value else none

structure Geometry where
  blockSize : Nat
  inputBlocks : Nat
  recoveryBlocks : Nat
  firstRecovery : Nat

def Geometry.validate (size : FieldSize) (geometry : Geometry) : Except Par3Error Nat :=
  if geometry.blockSize = 0 then .error (.codecGeometry "the block size is zero")
  else if geometry.blockSize % size.symbolBytes ≠ 0 then
    .error (.codecGeometry
      s!"a block size of {geometry.blockSize} bytes is not a whole number of {size.symbolBytes}-byte field symbols")
  else
    match (checked (geometry.inputBlocks + geometry.firstRecovery)).bind fun sum => checked (sum + geometry.recoveryBlocks) with
    | none => .error (.codecGeometry "the block counts overflow a 64-bit total")
    | some total =>
      if total > size.max + 1 then
        .error (.codecGeometry
          s!"{geometry.inputBlocks} input blocks and recovery blocks {geometry.firstRecovery}..{geometry.firstRecovery + geometry.recoveryBlocks} need more than the {size.max + 1} values the field holds")
      else .ok geometry.blockSize

/-- The symbols in a block. -/
def Geometry.symbols (size : FieldSize) (geometry : Geometry) : Nat := geometry.blockSize / size.symbolBytes

/-! Blocks come and go as bytes; a symbol is stored little endian. -/

namespace Block
variable {size : FieldSize} {g n : Nat}

/-- The symbols of a block whose missing bytes are zero. -/
def ofBytes (data : List UInt8) : Block size g n := fun i =>
  match size with
  | .gf8 => .ofNat (data[i.val]?.getD 0).toNat
  | .gf16 => .ofNat ((data[2 * i.val]?.getD 0).toNat + 256 * (data[2 * i.val + 1]?.getD 0).toNat)

/-- The byte at an offset. -/
def byteAt (block : Block size g n) (offset : Nat) : UInt8 :=
  if inside : offset / size.symbolBytes < n then
    .ofNat ((block ⟨offset / size.symbolBytes, inside⟩).toNat >>> (8 * (offset % size.symbolBytes)))
  else 0

def toBytes (block : Block size g n) : List UInt8 := (List.range (n * size.symbolBytes)).map block.byteAt

end Block

section Codec
variable {size : FieldSize} {g : Nat}

/-- The code matrix element for one input block and one recovery block. -/
def element (field : Field size g) (input recovery : Nat) : Except Par3Error (Field.Symbol size g) :=
  if recovery > size.max then
    .error (.codecBlock recovery s!"recovery block index is beyond the field's largest value {size.max}")
  else
    match (Field.symbol input : Option (Field.Symbol size g)), (Field.symbol (size.max - recovery) : Option (Field.Symbol size g)) with
    | none, _ => .error (.codecBlock input s!"input block index is beyond the field's largest value {size.max}")
    -- the `expect` of the source: `MAX - recovery` is a value of the field
    | some column, row =>
      match field.inv (column + row.getD 0) with
      | none => .error (.codecGeometry
          s!"input block {input} and recovery block {recovery} share the field value {size.max - recovery}")
      | some value => .ok value

/-- `RecoveryRow` and `RecoveredBlock`: a finished block under its index. -/
structure IndexedBlock where
  index : Nat
  data : List UInt8
deriving DecidableEq

def charge (bytes : Nat) (limits : CodecLimits) (what : String) : Except Par3Error Unit :=
  if bytes > limits.maxBufferBytes then
    .error (.codecLimitExceeded s!"{what} would need {bytes} bytes, over the {limits.maxBufferBytes} byte budget")
  else .ok ()

/-- Add a multiple of the zero-padded data to a buffer. -/
def accumulate {n : Nat} (field : Field size g) (row : Block size g n) (data : List UInt8) (factor : Field.Symbol size g) :
    Block size g n :=
  field.mulAcc row (Block.ofBytes data) factor

/-- The loop of both `add_input_block` over the rows; an error leaves the rows from there on as they were. -/
def accumulateRows {n : Nat} (field : Field size g) (index : Nat) (data : List UInt8) :
    List (Nat × Block size g n) → Except Par3Error Unit × List (Block size g n)
  | [] => (.ok (), [])
  | (recovery, buffer) :: rest =>
    match element field index recovery with
    | .error e => (.error e, buffer :: rest.map (·.2))
    | .ok factor =>
      let (result, done) := accumulateRows field index data rest
      (result, accumulate field buffer data factor :: done)

structure Encoder (size : FieldSize) (g : Nat) (geometry : Geometry) where
  field : Field size g
  rows : List (Block size g (geometry.symbols size))
  seen : Nat → Bool
  seenCount : Nat

namespace Encoder
variable {geometry : Geometry}

def withLimits (field : Field size g) (geometry : Geometry) (limits : CodecLimits) :
    Except Par3Error (Encoder size g geometry) :=
  match geometry.validate size with
  | .error e => .error e
  | .ok _ =>
    match (checked (geometry.recoveryBlocks + 1)).bind fun rows => checked (rows * geometry.blockSize) with
    | none => .error (.codecLimitExceeded "the recovery rows overflow a 64-bit byte count")
    | some buffers =>
      match charge buffers limits "the recovery rows" with
      | .error e => .error e
      | .ok _ => .ok
        { field := field
          rows := List.replicate geometry.recoveryBlocks 0
          seen := fun _ => false
          seenCount := 0 }

def isComplete (s : Encoder size g geometry) : Bool := s.seenCount == geometry.inputBlocks

def checkInput (s : Encoder size g geometry) (index : Nat) (data : List UInt8) : Except Par3Error Nat :=
  if index ≥ geometry.inputBlocks then .error (.codecBlock index s!"the set has {geometry.inputBlocks} input blocks")
  else if data.length > geometry.blockSize then
    .error (.codecBlock index s!"{data.length} bytes supplied for a {geometry.blockSize}-byte block")
  else if s.seen index then
    .error (.codecBlock index "was already added; an encoder accumulates a sum and cannot take a block back out")
  else .ok index

/-- The result of the call and the encoder after it. -/
def addInputBlock (s : Encoder size g geometry) (index : Nat) (data : List UInt8) :
    Except Par3Error Unit × Encoder size g geometry :=
  match s.checkInput index data with
  | .error e => (.error e, s)
  | .ok slot =>
    let (result, rows) := accumulateRows s.field index data
      (s.rows.zipIdx.map fun (buffer, row) => (geometry.firstRecovery + row, buffer))
    (result, { s with seen := Function.update s.seen slot true, seenCount := s.seenCount + 1, rows := rows })

def finish (s : Encoder size g geometry) : List IndexedBlock :=
  s.rows.zipIdx.map fun (data, row) => ⟨geometry.firstRecovery + row, data.toBytes⟩

end Encoder

/-- The loop of `sorted_distinct`. -/
def checkDistinct (check : Nat → Option String) : Option Nat → List Nat → Except Par3Error Unit
  | _, [] => .ok ()
  | previous, index :: rest =>
    match check index with
    | some reason => .error (.codecBlock index reason)
    | none =>
      if previous = some index then .error (.codecBlock index "was named twice")
      else checkDistinct check (some index) rest

def sortedDistinct (indices : List Nat) (check : Nat → Option String) : Except Par3Error (List Nat) :=
  let sorted := indices.insertionSort (· ≤ ·)
  match checkDistinct check none sorted with
  | .error e => .error e
  | .ok _ => .ok sorted

/-- The closure `weights` of `inverse_coefficients`. -/
def weights (field : Field size g) (a b : List (Field.Symbol size g)) : Except Par3Error (List (Field.Symbol size g)) :=
  a.zipIdx.mapM fun (value, i) =>
    let numerator := b.foldl (fun product other => field.mul product (value + other)) 1
    let denominator := (a.zipIdx.filter fun (_, j) => j ≠ i).foldl (fun product (other, _) => field.mul product (value + other)) 1
    match field.inv denominator with
    | none => .error .singularSystem
    | some reciprocal => .ok (field.mul numerator reciprocal)

/-- `inverse_coefficients`, with one list for each column. -/
def inverseCoefficients (field : Field size g) (lost rows : List Nat) : Except Par3Error (List (List (Field.Symbol size g))) := do
  if rows.length ≠ lost.length then throw .singularSystem
  let x ← lost.mapM fun index => (Field.symbol index).elim (.error .singularSystem) Except.ok
  let y ← rows.mapM fun index =>
    if index ≤ size.max then (Field.symbol (size.max - index)).elim (.error .singularSystem) Except.ok
    else .error .singularSystem
  let u ← weights field x y
  let v ← weights field y x
  (x.zip u).mapM fun (column, u) => (y.zip v).mapM fun (row, v) =>
    match field.inv (column + row) with
    | none => .error Par3Error.singularSystem
    | some divisor => .ok (field.mul (field.mul u v) divisor)

structure Decoder (size : FieldSize) (g : Nat) (geometry : Geometry) where
  field : Field size g
  lost : List Nat
  rows : List Nat
  syndromes : List (Block size g (geometry.symbols size))
  seenRows : Nat → Bool
  seenInputs : Nat → Bool

namespace Decoder
variable {geometry : Geometry}

/-- The bytes a decoder for `count` lost blocks needs. -/
def bufferBytes (size : FieldSize) (geometry : Geometry) (count : Nat) : Option Nat := do
  let blocks ← checked (count * 2)
  let bytes ← checked (blocks * geometry.blockSize)
  let bytes ← checked (bytes + geometry.blockSize)
  let square ← checked (count * count)
  let symbols ← checked (square * 2)
  let matrix ← checked (symbols * size.symbolBytes)
  checked (bytes + matrix)

def withLimits (field : Field size g) (geometry : Geometry) (lostInputs availableRecovery : List Nat) (limits : CodecLimits) :
    Except Par3Error (Decoder size g geometry) := do
  let _ ← geometry.validate size
  let lost ← sortedDistinct lostInputs fun index =>
    if index ≥ geometry.inputBlocks then some s!"the set has {geometry.inputBlocks} input blocks" else none
  if lost.length > limits.maxLostBlocks then
    throw (.codecLimitExceeded
      s!"rebuilding {lost.length} lost blocks needs a dense solve over the {limits.maxLostBlocks}-block ceiling")
  let first := geometry.firstRecovery
  let stop := first + geometry.recoveryBlocks
  let available ← sortedDistinct availableRecovery fun index =>
    if index < first ∨ index ≥ stop then some s!"the set's recovery blocks are {first}..{stop}" else none
  if available.length < lost.length then throw (.insufficientRecovery lost.length available.length)
  let rows := available.take lost.length
  match bufferBytes size geometry rows.length with
  | none => throw (.codecLimitExceeded "the syndromes and matrix overflow a 64-bit byte count")
  | some buffers =>
    charge buffers limits "the syndromes and the matrix"
    return {
      field := field
      lost := lost
      rows := rows
      syndromes := List.replicate rows.length 0
      seenRows := fun _ => false
      seenInputs := fun index => index ∈ lost }

/-- The result of the call and the decoder after it. -/
def addInputBlock (s : Decoder size g geometry) (index : Nat) (data : List UInt8) :
    Except Par3Error Unit × Decoder size g geometry :=
  if index ≥ geometry.inputBlocks then (.error (.codecBlock index s!"the set has {geometry.inputBlocks} input blocks"), s)
  else if data.length > geometry.blockSize then
    (.error (.codecBlock index s!"{data.length} bytes supplied for a {geometry.blockSize}-byte block"), s)
  else if index ∈ s.lost then (.error (.codecBlock index "was named as lost, so it cannot also be supplied"), s)
  else if s.seenInputs index then (.error (.codecBlock index "was already added"), s)
  else
    let (result, syndromes) := accumulateRows s.field index data (s.rows.zip s.syndromes)
    (result, { s with seenInputs := Function.update s.seenInputs index true, syndromes := syndromes })

def addRecoveryBlock (s : Decoder size g geometry) (index : Nat) (data : List UInt8) :
    Except Par3Error Unit × Decoder size g geometry :=
  match s.rows.idxOf? index with
  | none => (.error (.codecBlock index "is not one of the recovery blocks this decoder chose"), s)
  | some row =>
    if data.length > geometry.blockSize then
      (.error (.codecBlock index s!"{data.length} bytes supplied for a {geometry.blockSize}-byte block"), s)
    else if s.seenRows row then (.error (.codecBlock index "was already added"), s)
    else
      (.ok (), { s with
        seenRows := Function.update s.seenRows row true
        syndromes := s.syndromes.modify row (· + Block.ofBytes data) })

def solve (s : Decoder size g geometry) : Except Par3Error (List IndexedBlock) :=
  if s.lost.length = 0 then .ok []
  else match (List.range geometry.inputBlocks).find? (!s.seenInputs ·) with
    | some index => .error (.codecBlock index "survived but was never supplied, so the syndromes are incomplete")
    | none =>
      match (List.range s.rows.length).find? (!s.seenRows ·) with
      | some row => .error (.codecBlock (s.rows[row]?.getD 0) "was chosen for the solve but never supplied")
      | none =>
        match inverseCoefficients s.field s.lost s.rows with
        | .error e => .error e
        | .ok inverse => .ok <| (s.lost.zip inverse).map fun (index, column) =>
            ⟨index, ((column.zip s.syndromes).foldl (fun data (factor, syndrome) =>
              s.field.mulAcc data syndrome factor) (0 : Block size g (geometry.symbols size))).toBytes⟩

/-- A call that supplies a block. -/
inductive Call
  | input (index : Nat) (data : List UInt8)
  | recovery (index : Nat) (data : List UInt8)

def step (s : Decoder size g geometry) : Call → Except Par3Error Unit × Decoder size g geometry
  | .input index data => s.addInputBlock index data
  | .recovery index data => s.addRecoveryBlock index data

/-- The decoder after a sequence of calls, whatever they returned. -/
def run (s : Decoder size g geometry) (calls : List Call) : Decoder size g geometry :=
  calls.foldl (fun s call => (s.step call).2) s

end Decoder

/-- The encoder after a sequence of calls, whatever they returned. -/
def Encoder.run {geometry : Geometry} (s : Encoder size g geometry) (calls : List (Nat × List UInt8)) : Encoder size g geometry :=
  calls.foldl (fun s call => (s.addInputBlock call.1 call.2).2) s

end Codec
end Rarpar.Par3

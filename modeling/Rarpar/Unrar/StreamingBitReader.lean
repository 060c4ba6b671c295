import Rarpar.Unrar.BitRead

namespace Rarpar.Unrar
open BitString Simulation

/-- The underlying `Read`: what it has yet to hand over, and how many bytes it offers at each
call. A read is empty only at the end of the input or into an empty buffer. -/
structure Source where
  rest : List UInt8
  offered : Nat → Nat
  reads : Nat

namespace Source

def new (data : List UInt8) (offered : Nat → Nat) : Source := ⟨data, offered, 0⟩

def read (limit : Nat) (source : Source) : List UInt8 × Source :=
  let n := min limit (source.offered source.reads + 1)
  (source.rest.take n, { source with rest := source.rest.drop n, reads := source.reads + 1 })

theorem read_nonempty {limit : Nat} {source : Source} (positive : 0 < limit)
    (empty : (source.read limit).1 = []) : source.rest = [] := by
  rcases List.take_eq_nil_iff.mp empty with none | rest
  · omega
  · exact rest

theorem read_length_le (limit : Nat) (source : Source) : (source.read limit).1.length ≤ limit := by
  simp only [read, List.length_take]
  omega

theorem read_split (limit : Nat) (source : Source) :
    (source.read limit).1 ++ (source.read limit).2.rest = source.rest := List.take_append_drop _ _

end Source

/-- The reader over a `Read`. `buf` is the filled part of an input buffer of `capacity` bytes. -/
structure StreamingBitReader where
  inner : Source
  capacity : Nat
  buf : List UInt8
  bufPos : Nat
  acc : BitVec 64
  accBits : Nat
  eof : Bool
  bitPos : Nat
  zeroBytesPastEof : Nat

namespace StreamingBitReader

/-- `STREAMING_STRADDLE_HEADROOM`. -/
def straddleHeadroom : Nat := 8

/-- `STREAMING_INPUT_BUFFER_SIZE`. -/
def inputBufferSize : Nat := 0x80000

/-- A reader over a recycled buffer of `length` bytes; a short one is replaced. -/
def withBuffer (inner : Source) (length : Nat) : StreamingBitReader where
  inner := inner
  capacity := if length ≥ inputBufferSize + straddleHeadroom then length else inputBufferSize + straddleHeadroom
  buf := []
  bufPos := 0
  acc := 0
  accBits := 0
  eof := false
  bitPos := 0
  zeroBytesPastEof := 0

def fillLimit (r : StreamingBitReader) : Nat := r.capacity - straddleHeadroom

def fillBuffer (r : StreamingBitReader) : StreamingBitReader :=
  if r.bufPos < r.buf.length ∨ r.eof = true then r
  else
    let (bytes, inner) := r.inner.read r.fillLimit
    { r with inner := inner, bufPos := 0, buf := bytes, eof := r.eof || bytes.isEmpty }

/-- `refill_slow`; the loop runs at most eight times. -/
def refillSlow : Nat → StreamingBitReader → StreamingBitReader
  | 0, r => r
  | fuel + 1, r =>
    if r.accBits ≤ 56 then
      let r := r.fillBuffer
      if r.bufPos ≥ r.buf.length then r
      else
        refillSlow fuel
          { r with
            acc := r.acc ||| (r.buf.getD r.bufPos 0).toBitVec.setWidth 64 <<< (56 - r.accBits)
            bufPos := r.bufPos + 1
            accBits := r.accBits + 8 }
    else r

def refill (r : StreamingBitReader) : StreamingBitReader :=
  if r.accBits > 56 then r
  else if r.bufPos + 8 ≤ r.buf.length then
    let chunk := BitVec.ofNat 64 (fromBeBytes ((r.buf.drop r.bufPos).take 8))
    { r with
      acc := r.acc ||| chunk >>> r.accBits
      bufPos := r.bufPos + (63 - r.accBits) >>> 3
      accBits := r.accBits ||| 56 }
  else refillSlow 8 r

def refillIfNeeded (r : StreamingBitReader) : StreamingBitReader :=
  if r.accBits ≤ 56 then r.refill else r

/-- Bits in the accumulator and in the current fill. -/
def buffered (r : StreamingBitReader) : Nat := r.accBits + (r.buf.length - r.bufPos) * 8

/-- The leading `count` bits of the accumulator. -/
def top (r : StreamingBitReader) (count : Nat) : Nat := (r.acc >>> (64 - count)).toNat

def shift (r : StreamingBitReader) (count : Nat) : StreamingBitReader :=
  { r with acc := r.acc <<< count, accBits := r.accBits - count, bitPos := r.bitPos + count }

/-- The byte loop of `peek_bits`: `need` more bits from byte `pos` of the buffer on. -/
def peekBytes (r : StreamingBitReader) : Nat → Nat → Nat → Nat → Except RarError Nat
  | 0, _, result, _ => .ok result
  | fuel + 1, pos, result, need =>
    if need = 0 then .ok result
    else if pos ≥ r.buf.length then
      if r.eof then .ok result else .error (.corruptArchive "bitstream: truncated buffered read")
    else
      let byte := (r.buf.getD pos 0).toNat
      if 8 ≤ need then peekBytes r fuel (pos + 1) (result <<< 8 ||| byte) (need - 8)
      else .ok (result <<< need ||| byte >>> (8 - need))

def peekBits (count : Nat) : Reading StreamingBitReader Nat := fun r =>
  if count = 0 then .ok 0 r
  else if r.accBits ≥ count then .ok (r.top count) r
  else
    let r := r.refill
    if r.accBits ≥ count then .ok (r.top count) r
    else if r.buffered < count ∧ r.eof = true then .error (.needPeek count r.buffered) r
    else
      let result := if r.accBits > 0 then r.top r.accBits else 0
      match r.peekBytes 32 r.bufPos result (count - r.accBits) with
      | .ok value => .ok value r
      | .error e => .error e r

def consumeBits (count : Nat) : Reading StreamingBitReader Unit := fun r =>
  if count = 0 then .ok () r
  else if r.accBits ≥ count then .ok () (r.shift count).refillIfNeeded
  else
    let r := r.refill
    if r.accBits ≥ count then .ok () (r.shift count).refillIfNeeded
    else if r.buffered < count ∧ r.eof = true then
      .error (.corruptArchive s!"bitstream: cannot consume {count} bits, only {r.buffered} remaining") r
    else .error (.corruptArchive "bitstream: truncated code") r

def readBitsRefill (count : Nat) : Reading StreamingBitReader Nat := fun r =>
  let r := r.refill
  if r.accBits ≥ count then .ok (r.top count) (r.shift count).refillIfNeeded
  else if r.buffered < count ∧ r.eof = true then .error (.needBits count r.buffered) r
  else
    (do
      let result ← peekBits count
      consumeBits count
      pure result) r

def readBits (count : Nat) : Reading StreamingBitReader Nat := fun r =>
  if count = 0 then .ok 0 r
  else if r.accBits ≥ count then .ok (r.top count) (r.shift count).refillIfNeeded
  else readBitsRefill count r

def bitsRemaining : Reading StreamingBitReader Nat := fun r =>
  if r.eof then .ok r.buffered r
  else
    let r := r.refill
    .ok (if r.eof then r.buffered else r.buffered + 64) r

def hasBits : Reading StreamingBitReader Bool := fun r =>
  if r.accBits > 0 ∨ r.bufPos < r.buf.length then .ok true r
  else if r.eof then .ok false r
  else
    let r := r.fillBuffer
    .ok (decide (r.bufPos < r.buf.length)) r

def hasExactBits (bits : Nat) : Reading StreamingBitReader Bool := fun r =>
  let r := r.refill
  .ok (decide (r.buffered ≥ bits)) r

def ensureByte (r : StreamingBitReader) : StreamingBitReader :=
  if r.accBits < 8 then r.refill else r

def readByte : Reading StreamingBitReader UInt8 := fun r =>
  let r := r.ensureByte
  if r.accBits < 8 then .error (.needBits 8 r.buffered) r
  else .ok (UInt8.ofNat (r.top 8)) (r.shift 8)

def readByteOrZero : Reading StreamingBitReader UInt8 := fun r =>
  let r := r.ensureByte
  if r.accBits < 8 then .ok 0 { r with zeroBytesPastEof := saturatingSucc r.zeroBytesPastEof }
  else .ok (UInt8.ofNat (r.top 8)) (r.shift 8)

/-- The bit of the current fill that the cursor sits at, unless the accumulator still holds bits
of the previous fill. -/
def bufferBitPosition (r : StreamingBitReader) : Option Nat :=
  if r.accBits ≤ r.bufPos * 8 then some (r.bufPos * 8 - r.accBits) else none

def seekToBufferBit (position : Nat) : Reading StreamingBitReader Unit := fun r =>
  let r := { r with bufPos := position >>> 3, acc := 0, accBits := 0 }
  let offset := position % 8
  if offset ≠ 0 then
    let r := r.refill
    if r.accBits < offset then .error (.corruptArchive "bitstream: truncated span commit") r
    else .ok () { r with acc := r.acc <<< offset, accBits := r.accBits - offset }
  else .ok () r

/-- One read of `gather_byte_span`, behind what the buffer holds. -/
def readMore (r : StreamingBitReader) : StreamingBitReader :=
  let limit := min (r.buf.length + r.fillLimit) r.capacity
  let (bytes, inner) := r.inner.read (limit - r.buf.length)
  { r with inner := inner, buf := r.buf ++ bytes, eof := r.eof || bytes.isEmpty }

/-- The top-up loop of `gather_byte_span`; every read but the last brings a byte. -/
def topUp (min : Nat) : Nat → StreamingBitReader → StreamingBitReader
  | 0, r => r
  | fuel + 1, r => if r.buf.length < min ∧ r.eof = false then topUp min fuel r.readMore else r

/-- The unread bytes, laid out from the start of the buffer. -/
def relocate (r : StreamingBitReader) : StreamingBitReader :=
  let held := (List.range (r.accBits / 8)).map fun index => UInt8.ofNat (r.acc >>> (56 - 8 * index)).toNat
  { r with buf := held ++ r.buf.drop r.bufPos, bufPos := 0, acc := 0, accBits := 0 }

def gatherByteSpan (min : Nat) (r : StreamingBitReader) : StreamingBitReader :=
  topUp min (r.inner.rest.length + 1) r.relocate

def byteSpan (min : Nat) : Reading StreamingBitReader (Option (List UInt8 × Bool)) := fun r =>
  if r.bitPos % 8 ≠ 0 then .ok none r
  else
    match r.bufferBitPosition with
    | some bit =>
      if min ≤ r.buf.length - bit / 8 then .ok (some (r.buf.drop (bit / 8), r.eof)) r
      else
        let r := r.gatherByteSpan min
        .ok (some (r.buf, r.eof)) r
    | none =>
      let r := r.gatherByteSpan min
      .ok (some (r.buf, r.eof)) r

def consumeByteSpan (count : Nat) (r : StreamingBitReader) : StreamingBitReader :=
  if count = 0 then r
  else
    match r.bufferBitPosition with
    | none => r
    | some bit =>
      -- The commit is byte aligned, so its result is not looked at.
      match seekToBufferBit (bit + count * 8) { r with bitPos := r.bitPos + count * 8 } with
      | .ok _ r => r
      | .error _ r => r

/-- The shape of `peek_16_raw` and `peek_16_left_aligned`, which differ in the mask alone. -/
def peek16 (mask : Nat → Nat) : Reading StreamingBitReader Nat := fun r =>
  if r.accBits ≥ 16 then .ok (mask (r.acc >>> 48).toNat) r
  else
    let r := r.refill
    if r.accBits ≥ 16 then .ok (mask (r.acc >>> 48).toNat) r
    else if r.buffered = 0 then .error .unexpectedEnd r
    else
      let peekCount := min 16 r.buffered
      (do
        let raw ← peekBits peekCount
        pure (if peekCount < 16 then mask (raw <<< (16 - peekCount)) else mask raw)) r

/-- The loop of `skip_bits`, in steps of at most 32 bits. -/
def skipSteps : Nat → Nat → Reading StreamingBitReader Unit
  | 0, _ => pure ()
  | fuel + 1, remaining =>
    if remaining = 0 then pure ()
    else do
      let step := min remaining 32
      consumeBits step
      skipSteps fuel (remaining - step)

def skipBits (count : Nat) : Reading StreamingBitReader Unit := skipSteps count count

def alignByte : Reading StreamingBitReader Unit := fun r =>
  let bitOffset := r.bitPos % 8
  if bitOffset ≠ 0 then consumeBits (8 - bitOffset) r else .ok () r

instance : BitRead StreamingBitReader where
  bitsRemaining := bitsRemaining
  hasBits := hasBits
  hasExactBits := hasExactBits
  position r := r.bitPos
  readBits := readBits
  readByte := readByte
  readByteOrZero := readByteOrZero
  zeroBytesPastEof r := r.zeroBytesPastEof
  byteSpan := byteSpan
  consumeByteSpan count r := .ok () (r.consumeByteSpan count)
  peek16Raw := peek16 id
  peek16LeftAligned := peek16 (· &&& 0xfffe)
  consumeBits := consumeBits
  skipBits := skipBits
  alignByte := alignByte

end StreamingBitReader
end Rarpar.Unrar

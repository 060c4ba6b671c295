import Rarpar.Unrar.BitReader
import Rarpar.Unrar.BlockReader

namespace Rarpar.Unrar

/-- `MAX_CODE_LENGTH`. -/
def maxCodeLength : Nat := 15

/-- `MAX_QUICK_BITS`. -/
def maxQuickBits : Nat := 9

/-- `MAX_NUM_SYMBOLS`, the number of literal and length codes. -/
def maxNumSymbols : Nat := 306

structure HuffmanTable where
  decodeLen : Nat → Nat
  decodePos : Nat → Nat
  decodeNum : Nat → Nat
  quickLen : Nat → Nat
  quickNum : Nat → Nat
  quickBits : Nat
  maxLength : Nat
  numSymbols : Nat

def quickBitsForSize (numSymbols : Nat) : Nat :=
  if numSymbols = 306 ∨ numSymbols = 299 ∨ numSymbols = 298 then maxQuickBits else maxQuickBits - 3

/-- `wrapping_sub` on a `u32`. -/
def wrappingSub (a b : Nat) : Nat := (a + 2 ^ 32 - b) % 2 ^ 32

namespace HuffmanTable

/-- One round of the counting loop of `build`: symbols of each length and the longest one. -/
def countStep (state : (Nat → Nat) × Nat) (bl : Nat) : (Nat → Nat) × Nat :=
  let bl := bl &&& 0xF
  if bl ≠ 0 then (Function.update state.1 bl (state.1 bl + 1), max state.2 bl) else state

def countLengths (bitLengths : List Nat) : (Nat → Nat) × Nat := bitLengths.foldl countStep (fun _ => 0, 0)

/-- One round of the threshold loop of `build`. -/
def limitStep (lengthCount : Nat → Nat) (state : Nat × (Nat → Nat) × (Nat → Nat)) (i : Nat) :
    Nat × (Nat → Nat) × (Nat → Nat) :=
  let (upperLimit, decodeLen, decodePos) := state
  let upperLimit := upperLimit + lengthCount i
  (upperLimit * 2, Function.update decodeLen i (upperLimit <<< (16 - i)),
    Function.update decodePos i (decodePos (i - 1) + lengthCount (i - 1)))

def limits (lengthCount : Nat → Nat) : Nat × (Nat → Nat) × (Nat → Nat) :=
  (List.range' 1 15).foldl (limitStep lengthCount) (0, fun _ => 0, fun _ => 0)

/-- One round of the loop that lists the symbols by code. -/
def symbolStep (numSymbols : Nat) (state : (Nat → Nat) × (Nat → Nat)) (entry : Nat × Nat) :
    (Nat → Nat) × (Nat → Nat) :=
  let bl := entry.1 &&& 0xF
  if bl ≠ 0 then
    let pos := state.1 bl
    (Function.update state.1 bl (pos + 1), if pos < numSymbols then Function.update state.2 pos entry.2 else state.2)
  else state

def symbols (bitLengths : List Nat) (decodePos : Nat → Nat) : Nat → Nat :=
  (bitLengths.zipIdx.foldl (symbolStep bitLengths.length) (decodePos, fun _ => 0)).2

/-- The length cursor of the quick table moves up to the first length whose threshold is above the
field. -/
def moveLength (decodeLen : Nat → Nat) (bitField : Nat) : Nat → Nat → Nat
  | 0, cur => cur
  | fuel + 1, cur => if cur < 16 ∧ bitField ≥ decodeLen cur then moveLength decodeLen bitField fuel (cur + 1) else cur

/-- One round of the quick table loop. -/
def quickStep (decodeLen decodePos decodeNum : Nat → Nat) (quickBits numSymbols : Nat)
    (state : Nat × (Nat → Nat) × (Nat → Nat)) (code : Nat) : Nat × (Nat → Nat) × (Nat → Nat) :=
  let (cur, quickLen, quickNum) := state
  let bitField := code <<< (16 - quickBits)
  let cur := moveLength decodeLen bitField 16 cur
  let dist := wrappingSub bitField (decodeLen (cur - 1)) >>> (16 - cur)
  let pos := decodePos cur + dist
  (cur, Function.update quickLen code cur,
    if cur < 16 ∧ pos < numSymbols then Function.update quickNum code (decodeNum pos) else quickNum)

def quickTables (decodeLen decodePos decodeNum : Nat → Nat) (quickBits numSymbols : Nat) :
    Nat × (Nat → Nat) × (Nat → Nat) :=
  (List.range (1 <<< quickBits)).foldl (quickStep decodeLen decodePos decodeNum quickBits numSymbols)
    (1, fun _ => 0, fun _ => 0)

def build (bitLengths : List Nat) : Except RarError HuffmanTable :=
  let numSymbols := bitLengths.length
  if numSymbols > maxNumSymbols then .error .invalidHuffmanTable
  else
    let quickBits := quickBitsForSize numSymbols
    let (lengthCount, maxLength) := countLengths bitLengths
    let lengthCount := Function.update lengthCount 0 0
    if maxLength = 0 then .ok ⟨fun _ => 0, fun _ => 0, fun _ => 0, fun _ => 0, fun _ => 0, quickBits, 0, numSymbols⟩
    else
      let (_, decodeLen, decodePos) := limits lengthCount
      let decodeNum := symbols bitLengths decodePos
      let (_, quickLen, quickNum) := quickTables decodeLen decodePos decodeNum quickBits numSymbols
      .ok ⟨decodeLen, decodePos, decodeNum, quickLen, quickNum, quickBits, maxLength, numSymbols⟩

def slowPathBits (t : HuffmanTable) (bitField : Nat) : Nat :=
  ((List.range' (t.quickBits + 1) (maxCodeLength - (t.quickBits + 1))).find? fun i => decide (bitField < t.decodeLen i)).getD
    maxCodeLength

def symbolForBits (t : HuffmanTable) (bitField bits : Nat) : Nat :=
  let dist := wrappingSub bitField (t.decodeLen (bits - 1)) >>> (16 - bits)
  let pos := t.decodePos bits + dist
  let pos := if pos ≥ t.numSymbols then 0 else pos
  t.decodeNum (min pos (maxNumSymbols - 1))

def quickIndex (t : HuffmanTable) (bitField : Nat) : Nat := (bitField >>> (16 - t.quickBits)) &&& (1 <<< maxQuickBits - 1)

def quickThreshold (t : HuffmanTable) : Nat := t.decodeLen (t.quickBits &&& 0xF)

/-- What the decoders make of a 16-bit field: how many bits to consume, the symbol, and whether the
quick table gave it. -/
def lookup (t : HuffmanTable) (bitField : Nat) : Nat × Nat × Bool :=
  if bitField < t.quickThreshold then
    let code := t.quickIndex bitField
    (t.quickLen code, t.quickNum code, true)
  else
    let bits := t.slowPathBits bitField
    (bits, t.symbolForBits bitField bits, false)

def decode {σ : Type} [BitRead σ] (t : HuffmanTable) : Reading σ Nat := do
  let bitField ← BitRead.peek16LeftAligned
  BitRead.consumeBits (t.lookup bitField).1
  pure (t.lookup bitField).2.1

def decodeBitreader (t : HuffmanTable) : Reading BitReader Nat := do
  modify (BitReader.ensureBits 16)
  let bitField ← BitReader.look BitReader.getbits
  BitReader.addbits (t.lookup bitField).1
  pure (t.lookup bitField).2.1

def decodeCursor (t : HuffmanTable) (data : List UInt8) (endBit : Nat) : EStateM Panic BitCursor (Nat × Bool) :=
  fun cursor =>
    match cursor.peekU16 data with
    | .error e => .error e cursor
    | .ok word =>
      let bitField := word &&& 0xfffe
      match cursor.advance data endBit (t.lookup bitField).1 with
      | .error e => .error e cursor
      | .ok after => .ok (t.lookup bitField).2 after

def decodeBlockReader (t : HuffmanTable) : EStateM Panic BlockReader (Nat × Bool) := fun r =>
  match r.peekU16 with
  | .error e => .error e r
  | .ok word =>
    let bitField := word &&& 0xfffe
    match r.advance (t.lookup bitField).1 with
    | .error e => .error e r
    | .ok after => .ok (t.lookup bitField).2 after

end HuffmanTable
end Rarpar.Unrar

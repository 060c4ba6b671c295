import Rarpar.Data.RingBuffer
import Rarpar.Unrar.BitRead

namespace Rarpar.Unrar
open BlockMove RingBuffer

/-- `MAX_INC_LZ_MATCH`. -/
def maxIncLzMatch : Nat := 0x1004

/-- `INLINE_COPY_MAX`. -/
def inlineCopyMax : Nat := 64

/-- At most two overlapping stores of a power-of-two width, for 1 to 16 bytes. -/
def copyShortExact (src dst length : Nat) (buf : Nat → UInt8) : Nat → UInt8 :=
  if length ≥ 8 then move (src + (length - 8)) (dst + (length - 8)) 8 (move src dst 8 buf)
  else if length ≥ 4 then move (src + (length - 4)) (dst + (length - 4)) 4 (move src dst 4 buf)
  else if length ≥ 2 then move (src + (length - 2)) (dst + (length - 2)) 2 (move src dst 2 buf)
  else move src dst 1 buf

/-- The loop over chunks of one width of `copy_chunked`, from offset `i` on. -/
def chunkLoop (src dst length width : Nat) : Nat → Nat × (Nat → UInt8) → Nat × (Nat → UInt8)
  | 0, state => state
  | fuel + 1, (i, buf) =>
    if i + width ≤ length then chunkLoop src dst length width fuel (i + width, move (src + i) (dst + i) width buf)
    else (i, buf)

def copyChunked (src dst gap length : Nat) (buf : Nat → UInt8) : Nat → UInt8 :=
  let state := if gap ≥ 16 then chunkLoop src dst length 16 length (0, buf) else (0, buf)
  let (i, buf) := chunkLoop src dst length 8 length state
  if i < length then move (src + (length - 8)) (dst + (length - 8)) 8 buf else buf

/-- The doubling loop of `copy_no_wrap_fast`. -/
def doubleLoop (dst length : Nat) : Nat → Nat × (Nat → UInt8) → Nat × (Nat → UInt8)
  | 0, state => state
  | fuel + 1, (copied, buf) =>
    if copied < length then
      let chunk := min copied (length - copied)
      let buf := if chunk ≤ 16 then copyShortExact dst (dst + copied) chunk buf else move dst (dst + copied) chunk buf
      doubleLoop dst length fuel (copied + chunk, buf)
    else (copied, buf)

/-- The stores of `copy_no_wrap_fast`. The source lies behind the destination or, wrapped, ahead of it. -/
def copyCellsFast (src dst length : Nat) (buf : Nat → UInt8) : Nat → UInt8 :=
  let gap := if src ≤ dst then dst - src else src - dst
  if gap ≥ 8 then
    if length ≤ 16 then copyShortExact src dst length buf
    else if gap ≥ length ∧ length > inlineCopyMax then move src dst length buf
    else copyChunked src dst gap length buf
  else if src < dst then
    if length ≤ 16 then forward src dst length buf
    else (doubleLoop dst length length (gap, copyShortExact src dst gap buf)).2
  else forward src dst length buf

/-- The sliding window. Cells from `dictSize` to `allocated` are never touched. -/
structure Window where
  buf : Nat → UInt8
  allocated : Nat
  dictSize : Nat
  pos : Nat
  firstWinDone : Bool
  totalWritten : Nat
  totalFlushed : Nat
  invisibleRanges : List (Nat × Nat)
  invisiblePending : Nat

namespace Window

/-- `try_contiguous`: zeroed cells, if the allocator has them. -/
def tryNew (allocates : Nat → Bool) (dictSize : Nat) : Except RarError Window :=
  if dictSize = 0 then .error (.dictionaryTooLarge 0 0)
  else if allocates dictSize then .ok ⟨fun _ => 0, dictSize, dictSize, 0, false, 0, 0, [], 0⟩
  else .error (.allocationFailed dictSize)

def setDictSize (dictSize : Nat) (w : Window) : Window :=
  { w with
    dictSize := dictSize
    pos := if w.pos ≥ dictSize then w.pos % dictSize else w.pos
    firstWinDone := decide (w.totalWritten ≥ dictSize) }

def ensureCapacity (allocates : Nat → Bool) (dictSize : Nat) (w : Window) : Except RarError Window :=
  if dictSize = 0 then .error (.dictionaryTooLarge 0 0)
  else if dictSize > w.allocated then
    if allocates dictSize then .ok (setDictSize dictSize { w with buf := fun _ => 0, allocated := dictSize })
    else .error (.allocationFailed dictSize)
  else .ok (setDictSize dictSize w)

/-- What both resets do; the cells are left as they are. -/
def rewind (w : Window) : Window :=
  { w with
    pos := 0, firstWinDone := false, totalWritten := 0, totalFlushed := 0, invisibleRanges := []
    invisiblePending := 0 }

def resetForReuse (allocates : Nat → Bool) (dictSize : Nat) (w : Window) : Except RarError Window :=
  (w.ensureCapacity allocates dictSize).map rewind

def reset (w : Window) : Window := rewind { w with buf := fun _ => 0 }

/-- Moves the cursor by `n` cells that do not cross the end of the ring. -/
def step (n : Nat) (w : Window) : Window :=
  if w.pos + n = w.dictSize then { w with pos := 0, firstWinDone := true } else { w with pos := w.pos + n }

/-- A store at the cursor that does not cross the end of the ring. -/
def append (bytes : List UInt8) (w : Window) : Window :=
  step bytes.length { w with buf := store w.pos bytes w.buf }

def credit (n : Nat) (w : Window) : Window := { w with totalWritten := w.totalWritten + n }

def putByte (b : UInt8) (w : Window) : Window := (w.append [b]).credit 1

/-- The split store of `put_bytes`; every round stores at least one byte. -/
def putLoop : Nat → List UInt8 → Window → Window
  | 0, _, w => w
  | fuel + 1, rest, w =>
    if rest.isEmpty then w
    else
      let chunk := min rest.length (w.dictSize - w.pos)
      putLoop fuel (rest.drop chunk) (w.append (rest.take chunk))

/-- Short and long runs are stored by different instructions, to the same cells. -/
def putBytes (bytes : List UInt8) (w : Window) : Window :=
  if bytes.length = 0 then w
  else if w.pos + bytes.length ≤ w.dictSize then (w.append bytes).credit bytes.length
  else (putLoop bytes.length bytes w).credit bytes.length

def putLiteralBatch (bytes : Vector UInt8 8) (n : Nat) (w : Window) : Window :=
  if n = 8 ∧ w.pos + 8 ≤ w.dictSize then (w.append bytes.toList).credit 8 else w.putBytes (bytes.toList.take n)

/-- The loop that fills with one byte; every round stores at least one. -/
def fillLoop (byte : UInt8) : Nat → Nat → Window → Window
  | 0, _, w => w
  | fuel + 1, remaining, w =>
    if remaining = 0 then w
    else
      let chunk := min remaining (w.dictSize - w.pos)
      fillLoop byte fuel (remaining - chunk) (w.append (List.replicate chunk byte))

def fillZeroesAdvance (length : Nat) (w : Window) : Window := (fillLoop 0 length length w).credit length

def advancePreservingWindow (length : Nat) (w : Window) : Window :=
  { w with
    firstWinDone := w.firstWinDone || decide (w.pos + length ≥ w.dictSize)
    pos := (w.pos + length) % w.dictSize
    totalWritten := w.totalWritten + length }

def copyNoWrapFast (src length : Nat) (w : Window) : Window :=
  { w with
    buf := copyCellsFast src w.pos length w.buf
    pos := w.pos + length
    totalWritten := w.totalWritten + length }

/-- The byte loop with wrap handling: source, destination, whether the cursor has wrapped, cells. -/
def copyRing (dictSize : Nat) : Nat → Nat → Nat → Bool → (Nat → UInt8) → Nat × Bool × (Nat → UInt8)
  | 0, _, dst, done, buf => (dst, done, buf)
  | n + 1, src, dst, done, buf =>
    let buf := Function.update buf dst (buf src)
    let src := if src + 1 = dictSize then 0 else src + 1
    if dst + 1 = dictSize then copyRing dictSize n src 0 true buf else copyRing dictSize n src (dst + 1) done buf

/-- The cell `distance` back from the cursor. -/
def back (w : Window) (distance : Nat) : Nat :=
  if distance ≤ w.pos then w.pos - distance else w.dictSize - (distance - w.pos)

def copyAdvance (distance length : Nat) (w : Window) : Window :=
  if length = 0 then w
  else if distance = 0 then w.advancePreservingWindow length
  else if distance > w.dictSize ∨ (distance > w.pos ∧ w.firstWinDone = false) then w.fillZeroesAdvance length
  else
    let src := w.back distance
    if distance = 1 then
      let byte := w.buf src
      if w.pos + length ≤ w.dictSize then (w.append (List.replicate length byte)).credit length
      else (fillLoop byte length length w).credit length
    else
      let fastLimit := w.dictSize - maxIncLzMatch
      if length ≤ maxIncLzMatch ∧ src < fastLimit ∧ w.pos < fastLimit then w.copyNoWrapFast src length
      else
        let (dst, done, buf) := copyRing w.dictSize length src w.pos w.firstWinDone w.buf
        { w with buf := buf, pos := dst, firstWinDone := done, totalWritten := w.totalWritten + length }

/-- A range that starts where the last one ends is merged into it. -/
def pushRange (startTotal len : Nat) (ranges : List (Nat × Nat)) : List (Nat × Nat) :=
  match ranges.getLast? with
  | some (lastStart, lastLen) =>
    if lastStart + lastLen = startTotal then ranges.dropLast ++ [(lastStart, lastLen + len)]
    else ranges ++ [(startTotal, len)]
  | none => ranges ++ [(startTotal, len)]

def markInvisible (startTotal len : Nat) (w : Window) : Window :=
  if len = 0 then w
  else
    { w with
      invisiblePending := w.invisiblePending + len
      invisibleRanges := pushRange startTotal len w.invisibleRanges }

/-- Hides what a match of `length` bytes from `startTotal` on has beyond `visibleLen`. -/
def truncate (startTotal length visibleLen : Nat) (w : Window) : Window :=
  let visible := min visibleLen length
  if visible < length then w.markInvisible (startTotal + visible) (length - visible) else w

def copyWithVisibleLen (distance length visibleLen : Nat) (w : Window) : Window :=
  (w.copyAdvance distance length).truncate w.totalWritten length visibleLen

def copy (distance length : Nat) (w : Window) : Window := w.copyWithVisibleLen distance length length

def copyRar15WithVisibleLen (distance length visibleLen : Nat) (w : Window) : Window :=
  let advanced := if distance = 0 then w.fillZeroesAdvance length else w.copyAdvance distance length
  advanced.truncate w.totalWritten length visibleLen

def overlap (start end_ : Nat) (range : Nat × Nat) : Nat := min (range.1 + range.2) end_ - max range.1 start

def invisibleOverlap (w : Window) (start end_ : Nat) : Nat := (w.invisibleRanges.map (overlap start end_)).sum

def resyncInvisiblePending (w : Window) : Window :=
  { w with invisiblePending := w.invisibleOverlap w.totalFlushed w.totalWritten }

def gcInvisible (w : Window) : Window :=
  { w with invisibleRanges := w.invisibleRanges.filter fun range => range.1 + range.2 > w.totalFlushed }

/-- The flushed border moves to `upTo`. -/
def settle (upTo : Nat) (w : Window) : Window :=
  { w with totalFlushed := upTo }.gcInvisible.resyncInvisiblePending

def unflushedBytes (w : Window) : Nat := (w.totalWritten - w.totalFlushed) - w.invisiblePending

/-- The loop that reads `remaining` cells from `idx` on, in pieces that do not cross the end of the
ring. -/
def readLoop (w : Window) : Nat → Nat → Nat → List UInt8
  | 0, _, _ => []
  | fuel + 1, idx, remaining =>
    if remaining = 0 then []
    else
      let contig := min (w.dictSize - idx) remaining
      (List.range contig).map (fun i => w.buf (idx + i)) ++
        readLoop w fuel ((idx + contig) % w.dictSize) (remaining - contig)

def tryCopyOutput (startTotal len : Nat) (w : Window) : Except RarError (List UInt8) :=
  let endTotal := startTotal + len
  if startTotal > w.totalWritten ∨ endTotal > w.totalWritten then
    .error (.corruptArchive
      s!"window output range [{startTotal}, {endTotal}) exceeds written output {w.totalWritten}")
  else
    let distance := w.totalWritten - startTotal
    if distance > w.dictSize then
      .error (.corruptArchive
        s!"window output start {startTotal} is outside the {w.dictSize} byte dictionary history")
    else .ok (w.readLoop len (w.back distance) len)

/-- The bytes handed to the writer. A start past the end is refused by the first check already. -/
def writeRangeToWriter (startTotal len : Nat) (w : Window) : Except RarError (List UInt8) :=
  if len = 0 then .ok []
  else
    let endTotal := startTotal + len
    if endTotal > w.totalWritten then
      .error (.corruptArchive s!"requested range [{startTotal}, {endTotal}) exceeds total written {w.totalWritten}")
    else
      let distance := w.totalWritten - startTotal
      if distance > w.dictSize then
        .error (.corruptArchive s!"requested range start {startTotal} is older than window capacity {w.dictSize}")
      else .ok (w.readLoop len (w.back distance) len)

/-- What `write_visible_span` writes after its loop. -/
def visibleTail (w : Window) (end_ cursor : Nat) : Except RarError (List UInt8 × Nat) :=
  if cursor < end_ then (w.writeRangeToWriter cursor (end_ - cursor)).map fun bytes => (bytes, end_ - cursor)
  else .ok ([], 0)

/-- The loop over the invisible ranges: what is written from `cursor` on, and how much. -/
def visibleLoop (w : Window) (end_ : Nat) : List (Nat × Nat) → Nat → Except RarError (List UInt8 × Nat)
  | [], cursor => w.visibleTail end_ cursor
  | (invStart, invLen) :: rest, cursor =>
    let invEnd := invStart + invLen
    if invEnd ≤ cursor then visibleLoop w end_ rest cursor
    else if invStart ≥ end_ then w.visibleTail end_ cursor
    else if invStart > cursor then do
      let gapEnd := min invStart end_
      let gap ← w.writeRangeToWriter cursor (gapEnd - cursor)
      let (bytes, written) ← visibleLoop w end_ rest (max cursor (min invEnd end_))
      pure (gap ++ bytes, (gapEnd - cursor) + written)
    else visibleLoop w end_ rest (max cursor (min invEnd end_))

def writeVisibleSpan (start end_ : Nat) (w : Window) : Except RarError (List UInt8 × Nat) :=
  w.visibleLoop end_ w.invisibleRanges start

def flushToWriter (w : Window) : Except RarError (List UInt8 × Nat × Window) :=
  let unflushed := w.unflushedBytes
  if unflushed = 0 then .ok ([], 0, w.settle w.totalWritten)
  else if unflushed > w.dictSize then
    .error (.corruptArchive s!"window overrun: {unflushed} unflushed bytes exceeds dictionary size {w.dictSize}")
  else do
    let (bytes, _) ← w.writeVisibleSpan w.totalFlushed w.totalWritten
    pure (bytes, unflushed, w.settle w.totalWritten)

def flushVisibleUntil (upTo : Nat) (w : Window) : Except RarError (List UInt8 × Nat × Window) :=
  let target := min upTo w.totalWritten
  if target ≤ w.totalFlushed then .ok ([], 0, w)
  else do
    let (bytes, written) ← w.writeVisibleSpan w.totalFlushed target
    pure (bytes, written, w.settle target)

def markFlushed (upTo : Nat) (w : Window) : Window := w.settle (min upTo w.totalWritten)

end Window
end Rarpar.Unrar

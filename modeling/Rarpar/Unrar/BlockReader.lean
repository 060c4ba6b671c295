import Rarpar.Data.BitString
import Rarpar.Data.Panic

namespace Rarpar.Unrar
open BitString

/-- `LOOKAHEAD_BYTES`. -/
def lookaheadBytes : Nat := 32

/-- `NARROW_PEEK_BITS`. -/
def narrowPeekBits : Nat := 24

/-- `MIN_WINDOW_BITS`. -/
def minWindowBits : Nat := 32

inductive BlockReaderError where
  | invalidRange (startBit endBit : Nat)
  | rangeOutOfBounds (endBit availableBits : Nat)
  | missingLookahead (requiredEnd available : Nat)
  | endOvershoot (position endBit : Nat)
deriving DecidableEq, Repr

/-- The bits at `pos`, left aligned in `acc`, of which the first `accBits` are valid. -/
structure BitCursor where
  acc : BitVec 64
  accBits : Nat
  pos : Nat
deriving DecidableEq

/-- An unaligned big-endian load; one outside the slice is a failed assertion. -/
def loadBe (width : Nat) (data : List UInt8) (byte : Nat) : Except Panic Nat :=
  if byte + width ≤ data.length then .ok (fromBeBytes ((data.drop byte).take width)) else .error .assertion

namespace BitCursor

def peekWindowU32 (cursor : BitCursor) (data : List UInt8) : Except Panic (BitVec 32) := do
  let raw ← loadBe 4 data (cursor.pos >>> 3)
  pure (BitVec.ofNat 32 raw <<< (cursor.pos % 8))

/-- The window is rebuilt inside the block and dropped past its end. -/
def refill (data : List UInt8) (endBit : Nat) (cursor : BitCursor) : Except Panic BitCursor :=
  if cursor.pos > endBit then .ok { cursor with acc := 0, accBits := 0 }
  else do
    let raw ← loadBe 8 data (cursor.pos >>> 3)
    let offset := cursor.pos % 8
    pure { cursor with acc := BitVec.ofNat 64 raw <<< offset, accBits := 64 - offset }

def peekU64Direct (cursor : BitCursor) (data : List UInt8) : Except Panic (BitVec 64) := do
  let byte := cursor.pos >>> 3
  let offset := cursor.pos % 8
  let high ← loadBe 8 data byte
  if offset = 0 then pure (BitVec.ofNat 64 high)
  else
    let low ← loadBe 8 data (byte + 1)
    pure (BitVec.ofNat 64 high <<< offset ||| BitVec.ofNat 64 low >>> (8 - offset))

def peekU64 (cursor : BitCursor) (data : List UInt8) : Except Panic (BitVec 64) :=
  if cursor.accBits = 64 then .ok cursor.acc else cursor.peekU64Direct data

def peekU16 (cursor : BitCursor) (data : List UInt8) : Except Panic Nat :=
  if cursor.accBits ≥ 16 then .ok (cursor.acc >>> 48).toNat
  else do
    let window ← cursor.peekWindowU32 data
    pure (window >>> 16).toNat

def peekBits (cursor : BitCursor) (data : List UInt8) (count : Nat) : Except Panic Nat :=
  if count = 0 then .ok 0
  else if count ≤ cursor.accBits then .ok (cursor.acc >>> (64 - count)).toNat
  else if count ≤ narrowPeekBits then do
    let window ← cursor.peekWindowU32 data
    pure (window >>> (32 - count)).toNat
  else do
    let value ← cursor.peekU64 data
    pure (value >>> (64 - count)).toNat

def advance (data : List UInt8) (endBit count : Nat) (cursor : BitCursor) : Except Panic BitCursor :=
  let pos := cursor.pos + count
  if count < cursor.accBits then
    let kept : BitCursor := ⟨cursor.acc <<< count, cursor.accBits - count, pos⟩
    if kept.accBits ≥ minWindowBits then .ok kept else refill data endBit kept
  else refill data endBit ⟨cursor.acc, 0, pos⟩

def readBits (data : List UInt8) (endBit count : Nat) (cursor : BitCursor) : Except Panic (Nat × BitCursor) := do
  let value ← cursor.peekBits data count
  let after ← cursor.advance data endBit count
  pure (value, after)

end BitCursor

/-- A reader over one bit range of `data`; its mutable half is a cursor. -/
structure BlockReader where
  data : List UInt8
  endBit : Nat
  cursor : BitCursor
deriving DecidableEq

namespace BlockReader

/-- The load of the first window is inside the slice by the checks before it. -/
def new (data : List UInt8) (startBit endBit : Nat) : Except Panic (Except BlockReaderError BlockReader) :=
  if startBit > endBit then .ok (.error (.invalidRange startBit endBit))
  else
    let availableBits := data.length * 8
    if endBit > availableBits then .ok (.error (.rangeOutOfBounds endBit availableBits))
    else
      let requiredEnd := (endBit + 7) / 8 + lookaheadBytes
      if requiredEnd > data.length then .ok (.error (.missingLookahead requiredEnd data.length))
      else do
        let cursor ← BitCursor.refill data endBit ⟨0, 0, startBit⟩
        pure (.ok ⟨data, endBit, cursor⟩)

def position (r : BlockReader) : Nat := r.cursor.pos

def peekBits (r : BlockReader) (count : Nat) : Except Panic Nat := r.cursor.peekBits r.data count

def peekU16 (r : BlockReader) : Except Panic Nat := r.cursor.peekU16 r.data

def advance (r : BlockReader) (count : Nat) : Except Panic BlockReader := do
  let cursor ← r.cursor.advance r.data r.endBit count
  pure { r with cursor := cursor }

def readBits (r : BlockReader) (count : Nat) : Except Panic (Nat × BlockReader) := do
  let (value, cursor) ← r.cursor.readBits r.data r.endBit count
  pure (value, { r with cursor := cursor })

def validateEnd (r : BlockReader) : Except BlockReaderError Unit :=
  if r.position ≤ r.endBit then .ok () else .error (.endOvershoot r.position r.endBit)

end BlockReader

section Windows
variable {data : List UInt8} {endBit count : Nat} {cursor : BitCursor}

theorem loadBe_of_le {width byte : Nat} (inside : byte + width ≤ data.length) :
    loadBe width data byte = .ok (field (bit data) (8 * byte) (8 * width)) := by
  rw [loadBe, if_pos inside, fromBeBytes_eq_field inside]

/-- A cursor over a block with its lookahead: the window is true to the input, and inside the block
it is wide enough for any symbol. -/
structure BitCursor.Good (data : List UInt8) (endBit : Nat) (cursor : BitCursor) : Prop where
  window : Window cursor.acc cursor.accBits (bit data) cursor.pos
  wide : cursor.pos ≤ endBit → minWindowBits ≤ cursor.accBits
  guarded : (endBit + 7) / 8 + lookaheadBytes ≤ data.length

namespace BitCursor

theorem refill_good (guarded : (endBit + 7) / 8 + lookaheadBytes ≤ data.length) (cursor : BitCursor) :
    ∃ after, cursor.refill data endBit = .ok after ∧ after.pos = cursor.pos ∧ Good data endBit after := by
  unfold refill
  by_cases past : cursor.pos > endBit
  · rw [if_pos past]
    exact ⟨_, rfl, rfl, Window.empty, fun inside => absurd inside (Nat.not_le.mpr past), guarded⟩
  · rw [if_neg past]
    have inside : cursor.pos >>> 3 + 8 ≤ data.length := by
      unfold lookaheadBytes at guarded
      omega
    rw [loadBe_of_le inside]
    refine ⟨_, rfl, rfl, ?_, fun _ => ?_, guarded⟩
    · have load : Window (BitVec.ofNat 64 (field (bit data) (8 * (cursor.pos >>> 3)) 64)) 64 (bit data)
          (8 * (cursor.pos >>> 3)) := by
        have none : Window 0 0 (bit data) (8 * (cursor.pos >>> 3)) := Window.empty
        have loaded := none.load fun i below => getMsbD_ofNat_field (bit data) _ i below
        simpa using loaded
      have shifted := load.shift (show cursor.pos % 8 ≤ 64 by omega)
      rwa [show 8 * (cursor.pos >>> 3) + cursor.pos % 8 = cursor.pos by omega] at shifted
    · unfold minWindowBits
      dsimp only
      omega

theorem Good.peekU16 (good : Good data endBit cursor) (inside : cursor.pos ≤ endBit) :
    cursor.peekU16 data = .ok (field (bit data) cursor.pos 16) := by
  have wide := good.wide inside
  have enough : cursor.accBits ≥ 16 := by
    unfold minWindowBits at wide
    omega
  have value := good.window.field_eq enough
  unfold BitCursor.peekU16
  rw [if_pos enough]
  exact congrArg Except.ok value

theorem Good.advance (good : Good data endBit cursor) (count : Nat) :
    ∃ after, cursor.advance data endBit count = .ok after ∧ after.pos = cursor.pos + count ∧
      Good data endBit after := by
  unfold BitCursor.advance
  by_cases held : count < cursor.accBits
  · simp only [if_pos held]
    by_cases wide : cursor.accBits - count ≥ minWindowBits
    · simp only [if_pos wide]
      exact ⟨_, rfl, rfl, good.window.shift held.le, fun _ => wide, good.guarded⟩
    · simp only [if_neg wide]
      exact refill_good good.guarded _
  · simp only [if_neg held]
    exact refill_good good.guarded _

end BitCursor

/-- A constructed reader stands at its first bit. -/
theorem BlockReader.new_good {startBit : Nat} {r : BlockReader} (built : BlockReader.new data startBit endBit = .ok (.ok r)) :
    r.data = data ∧ r.endBit = endBit ∧ r.position = startBit ∧ BitCursor.Good data endBit r.cursor := by
  unfold BlockReader.new at built
  by_cases order : startBit > endBit
  · simp [order] at built
  rw [if_neg order] at built
  by_cases bounds : endBit > data.length * 8
  · simp [bounds] at built
  simp only [if_neg bounds] at built
  by_cases guard_ : (endBit + 7) / 8 + lookaheadBytes > data.length
  · simp [guard_] at built
  simp only [if_neg guard_] at built
  obtain ⟨cursor, loaded, place, good⟩ := BitCursor.refill_good (Nat.not_lt.mp guard_) ⟨0, 0, startBit⟩
  rw [loaded] at built
  obtain rfl : (⟨data, endBit, cursor⟩ : BlockReader) = r := by
    injection built with inner
    injection inner
  exact ⟨rfl, rfl, place, good⟩

end Windows

end Rarpar.Unrar

import Rarpar.Data.BitString
import Rarpar.Data.Simulation

namespace Rarpar.Unrar
open BitString Simulation

inductive RarError where
  | corruptArchive (detail : String)
  | invalidHuffmanTable
  | dictionaryTooLarge (size max : Nat)
  | allocationFailed (bytes : Nat)
  /-- A read past the end of the input. -/
  | unexpectedEof
  | internal (detail : String)
  | recoveryRecordInsufficient (units : List Nat)
deriving DecidableEq, Repr

/-- A call on a bit reader. As in the source, a call that fails leaves the reader as it was at the
point of failure. -/
abbrev Reading (σ α : Type) := EStateM RarError σ α

/-- The operations that the decoders use. A count is at most 32 bits, and at most 64 for
`readBits64`. -/
class BitRead (σ : Type) where
  bitsRemaining : Reading σ Nat
  hasBits : Reading σ Bool
  hasExactBits : Nat → Reading σ Bool
  position : σ → Nat
  readBits : Nat → Reading σ Nat
  readByte : Reading σ UInt8
  readByteOrZero : Reading σ UInt8
  zeroBytesPastEof : σ → Nat
  byteSpan : Nat → Reading σ (Option (List UInt8 × Bool))
  consumeByteSpan : Nat → Reading σ Unit
  peek16Raw : Reading σ Nat
  peek16LeftAligned : Reading σ Nat
  consumeBits : Nat → Reading σ Unit
  skipBits : Nat → Reading σ Unit
  alignByte : Reading σ Unit

namespace BitRead
variable {σ : Type} [BitRead σ]

def bytePosition (reader : σ) : Nat := position reader / 8

def readBits64 (count : Nat) : Reading σ Nat :=
  if count ≤ 32 then readBits count
  else do
    let high ← readBits (count - 32)
    let low ← readBits 32
    pure (high <<< 32 ||| low)

end BitRead

namespace RarError

def unexpectedEnd : RarError := .corruptArchive "bitstream: unexpected end of data"

def needBits (count remaining : Nat) : RarError :=
  .corruptArchive s!"bitstream: need {count} bits but only {remaining} remaining"

def needPeek (count remaining : Nat) : RarError :=
  .corruptArchive s!"bitstream: need {count} bits to peek but only {remaining} remaining"

end RarError

/-- `saturating_add(1)` on a `u32`. -/
def saturatingSucc (count : Nat) : Nat := min (count + 1) (2 ^ 32 - 1)

/-- A position in a byte string, and the number of zero bytes invented past its end. -/
structure Cursor where
  data : List UInt8
  pos : Nat
  zeros : Nat
  inside : pos ≤ 8 * data.length

namespace Cursor

def start (data : List UInt8) : Cursor := ⟨data, 0, 0, Nat.zero_le _⟩

/-- The number of bits between the position and the end of the string. -/
def remaining (c : Cursor) : Nat := 8 * c.data.length - c.pos

def advance (c : Cursor) (count : Nat) (fits : count ≤ c.remaining) : Cursor where
  data := c.data
  pos := c.pos + count
  zeros := c.zeros
  inside := by
    have bound := c.inside
    unfold remaining at fits
    omega

def countZero (c : Cursor) : Cursor := { c with zeros := saturatingSucc c.zeros }

theorem advance_remaining (c : Cursor) {count : Nat} (fits : count ≤ c.remaining) :
    (c.advance count fits).remaining = c.remaining - count := by
  simp only [remaining, advance]
  omega

/-- Reads `count` bits, most significant first. -/
def take (count : Nat) : Reading Cursor Nat := fun c =>
  if fits : count ≤ c.remaining then .ok (field (bit c.data) c.pos count) (c.advance count fits)
  else .error .unexpectedEnd c

def drop (count : Nat) : Reading Cursor Unit := fun c =>
  if fits : count ≤ c.remaining then .ok () (c.advance count fits) else .error .unexpectedEnd c

/-- The next 16 bits, with zeros past the end of the string; no bits at all is an error. -/
def peek : Reading Cursor Nat := fun c =>
  if c.remaining = 0 then .error .unexpectedEnd c else .ok (field (bit c.data) c.pos 16) c

variable {c : Cursor} {count : Nat}

theorem take_of_le (fits : count ≤ c.remaining) :
    take count c = .ok (field (bit c.data) c.pos count) (c.advance count fits) := dif_pos fits

theorem take_of_lt (short : c.remaining < count) : take count c = .error .unexpectedEnd c :=
  dif_neg (Nat.not_le.mpr short)

theorem drop_of_le (fits : count ≤ c.remaining) : drop count c = .ok () (c.advance count fits) := dif_pos fits

theorem drop_of_lt (short : c.remaining < count) : drop count c = .error .unexpectedEnd c :=
  dif_neg (Nat.not_le.mpr short)

theorem advance_congr (other : Nat) (same : count = other) (fits : count ≤ c.remaining) :
    c.advance count fits = c.advance other (same ▸ fits) := by
  subst same
  rfl

theorem advance_advance {more : Nat} (fits : count ≤ c.remaining) (next : more ≤ (c.advance count fits).remaining) :
    (c.advance count fits).advance more next =
      c.advance (count + more) (by rw [advance_remaining] at next; omega) := by
  simp only [advance, Nat.add_assoc]

theorem bit_of_remaining_le {i : Nat} (beyond : c.remaining ≤ i) : bit c.data (c.pos + i) = false := by
  refine bit_of_length_le ?_
  unfold remaining at beyond
  omega

theorem align_fits (c : Cursor) : (8 - c.pos % 8) % 8 ≤ c.remaining := by
  have bound := c.inside
  unfold remaining
  omega

/-- The ideal reader: every operation is arithmetic on the position in the string. -/
instance : BitRead Cursor where
  bitsRemaining c := .ok c.remaining c
  hasBits c := .ok (decide (0 < c.remaining)) c
  hasExactBits bits c := .ok (decide (bits ≤ c.remaining)) c
  position c := c.pos
  readBits := take
  readByte := UInt8.ofNat <$> take 8
  readByteOrZero c :=
    if fits : 8 ≤ c.remaining then .ok (UInt8.ofNat (field (bit c.data) c.pos 8)) (c.advance 8 fits)
    else .ok 0 c.countZero
  zeroBytesPastEof c := c.zeros
  byteSpan _ c := .ok (if c.pos % 8 = 0 then some (c.data.drop (c.pos / 8), true) else none) c
  consumeByteSpan count c :=
    if fits : 8 * count ≤ c.remaining then .ok () (c.advance (8 * count) fits) else .error .unexpectedEnd c
  peek16Raw := peek
  peek16LeftAligned := (· &&& 0xfffe) <$> peek
  consumeBits := drop
  skipBits := drop
  alignByte c := .ok () (c.advance _ c.align_fits)

end Cursor

open BitRead in
/-- A reader whose states stand for cursors, so that its operations are those of the cursor.
Spans and exact availability are left to the reader, within the stated bounds. -/
class LawfulBitRead (σ : Type) [BitRead σ] where
  Reads : σ → Cursor → Prop
  position_eq : ∀ {reader cursor}, Reads reader cursor → position reader = cursor.pos
  zeros_eq : ∀ {reader cursor}, Reads reader cursor → zeroBytesPastEof reader = cursor.zeros
  hasBits : Simulates Reads hasBits hasBits
  readBits : ∀ {count}, count ≤ 32 → Simulates Reads (readBits count) (readBits count)
  readByte : Simulates Reads readByte readByte
  readByteOrZero : Simulates Reads readByteOrZero readByteOrZero
  peek16Raw : Simulates Reads peek16Raw peek16Raw
  peek16LeftAligned : Simulates Reads peek16LeftAligned peek16LeftAligned
  consumeBits : ∀ {count}, count ≤ 32 → Simulates Reads (consumeBits count) (consumeBits count)
  alignByte : Simulates Reads alignByte alignByte

namespace LawfulBitRead
variable {σ : Type} [BitRead σ] [LawfulBitRead σ]

theorem readBits64 {count : Nat} (bound : count ≤ 64) :
    Simulates (Reads (σ := σ)) (BitRead.readBits64 count) (BitRead.readBits64 count) := by
  refine Simulates.ite readBits fun wide => ?_
  refine Simulates.bind (readBits (by omega)) fun high => ?_
  exact Simulates.bind (readBits le_rfl) fun low => Simulates.pure _

end LawfulBitRead

end Rarpar.Unrar

import Mathlib.Data.List.Basic
import Rarpar.Unrar.BitRead

namespace Rarpar.Unrar
open BitString Simulation Cursor

/-- The reader over a byte slice. The next bit to read is bit 63 of `acc`. -/
structure BitReader where
  data : List UInt8
  bytePos : Nat
  acc : BitVec 64
  accBits : Nat
  zeroBytesPastEof : Nat
deriving DecidableEq

namespace BitReader

/-- The byte loop of `refill`; it runs at most eight times. -/
def refillTail : Nat → BitReader → BitReader
  | 0, r => r
  | fuel + 1, r =>
    if r.accBits ≤ 56 ∧ r.bytePos < r.data.length then
      refillTail fuel
        { r with
          acc := r.acc ||| (r.data.getD r.bytePos 0).toBitVec.setWidth 64 <<< (56 - r.accBits)
          bytePos := r.bytePos + 1
          accBits := r.accBits + 8 }
    else r

def refill (r : BitReader) : BitReader :=
  if r.accBits > 56 then r
  else if r.bytePos + 8 ≤ r.data.length then
    let chunk := BitVec.ofNat 64 (fromBeBytes ((r.data.drop r.bytePos).take 8))
    -- Eight bytes are loaded, only the whole ones that fit are credited.
    { r with
      acc := r.acc ||| chunk >>> r.accBits
      bytePos := r.bytePos + (63 - r.accBits) >>> 3
      accBits := r.accBits ||| 56 }
  else refillTail 8 r

def new (data : List UInt8) : BitReader := refill ⟨data, 0, 0, 0, 0⟩

def ensureBits (count : Nat) (r : BitReader) : BitReader :=
  if r.accBits < count then r.refill else r

def bitsRemaining (r : BitReader) : Nat := r.accBits + (r.data.length - r.bytePos) * 8

def hasBits (r : BitReader) : Bool := decide (r.accBits > 0 ∨ r.bytePos < r.data.length)

def position (r : BitReader) : Nat := r.bytePos * 8 - r.accBits

/-- The leading `count` bits of the accumulator. -/
def top (r : BitReader) (count : Nat) : Nat := (r.acc >>> (64 - count)).toNat

def shift (r : BitReader) (count : Nat) : BitReader :=
  { r with acc := r.acc <<< count, accBits := r.accBits - count }

def readBitsRefill (count : Nat) : Reading BitReader Nat := fun r =>
  let r := r.refill
  if r.accBits < count then .error (.needBits count r.bitsRemaining) r
  else .ok (r.top count) (r.shift count)

def readBits (count : Nat) : Reading BitReader Nat := fun r =>
  if count = 0 then .ok 0 r
  else if r.accBits < count then readBitsRefill count r
  else .ok (r.top count) (r.shift count)

/-- The byte loop of `peek_bits`: `remaining` more bits from byte `bp` on. -/
def peekBytes (data : List UInt8) : Nat → Nat → Nat → Nat → Nat
  | 0, _, result, _ => result
  | fuel + 1, bp, result, remaining =>
    if 0 < remaining ∧ bp < data.length then
      let byte := (data.getD bp 0).toNat
      if 8 ≤ remaining then peekBytes data fuel (bp + 1) (result <<< 8 ||| byte) (remaining - 8)
      else result <<< remaining ||| byte >>> (8 - remaining)
    else result

def peekBits (r : BitReader) (count : Nat) : Except RarError Nat :=
  if count = 0 then .ok 0
  else if r.accBits < count then
    if r.bitsRemaining < count then .error (.needPeek count r.bitsRemaining)
    else
      let result := if r.accBits > 0 then r.top r.accBits else 0
      .ok (peekBytes r.data 32 r.bytePos result (count - r.accBits))
  else .ok (r.top count)

/-- The shape of `peek_16_raw` and `peek_16_left_aligned`, which differ in the mask alone. -/
def peek16 (mask : Nat → Nat) (r : BitReader) : Except RarError Nat :=
  if r.accBits ≥ 16 then .ok (mask (r.acc >>> 48).toNat)
  else
    let bitsAvail := r.bitsRemaining
    if bitsAvail = 0 then .error .unexpectedEnd
    else
      let peekCount := min 16 bitsAvail
      (r.peekBits peekCount).map fun raw =>
        if peekCount < 16 then mask (raw <<< (16 - peekCount)) else mask raw

def peek16Raw : BitReader → Except RarError Nat := peek16 id

def peek16LeftAligned : BitReader → Except RarError Nat := peek16 (· &&& 0xfffe)

def getbits : BitReader → Except RarError Nat := peek16LeftAligned

def skipBits (count : Nat) : Reading BitReader Unit := fun r =>
  if r.bitsRemaining < count then
    .error (.corruptArchive s!"bitstream: cannot skip {count} bits, only {r.bitsRemaining} remaining") r
  else if count ≤ r.accBits then
    .ok () { r with acc := if count < 64 then r.acc <<< count else 0, accBits := r.accBits - count }
  else
    let remaining := count - r.accBits
    let skipBytes := remaining / 8
    let r := { r with acc := 0, accBits := 0, bytePos := r.bytePos + skipBytes }
    let remaining := remaining - skipBytes * 8
    if 0 < remaining then .ok () (r.refill.shift remaining) else .ok () r

def consumeBits (count : Nat) : Reading BitReader Unit := fun r =>
  if count = 0 then .ok () r
  else if r.accBits ≥ count then .ok () (r.shift count)
  else
    let r := r.refill
    if r.accBits ≥ count then .ok () (r.shift count) else skipBits count r

def addbits : Nat → Reading BitReader Unit := consumeBits

def alignByte (r : BitReader) : BitReader :=
  let bitOffset := r.position % 8
  if bitOffset ≠ 0 then
    let skip := 8 - bitOffset
    let r := r.ensureBits skip
    if skip ≤ r.accBits then r.shift skip else r
  else r

def readByte : Reading BitReader UInt8 := fun r =>
  let r := r.ensureBits 8
  if r.accBits < 8 then .error (.needBits 8 r.bitsRemaining) r
  else .ok (UInt8.ofNat (r.top 8)) (r.shift 8)

def readByteOrZero : Reading BitReader UInt8 := fun r =>
  let r := r.ensureBits 8
  if r.accBits < 8 then .ok 0 { r with zeroBytesPastEof := saturatingSucc r.zeroBytesPastEof }
  else .ok (UInt8.ofNat (r.top 8)) (r.shift 8)

def seekToBit (position : Nat) (r : BitReader) : BitReader :=
  let r := { r with bytePos := position >>> 3, acc := 0, accBits := 0 }
  let offset := position % 8
  if offset ≠ 0 then r.refill.shift offset else r

def byteSpan (r : BitReader) : Option (List UInt8 × Bool) :=
  if r.position % 8 ≠ 0 then none else some (r.data.drop (r.position / 8), true)

def consumeByteSpan (count : Nat) (r : BitReader) : BitReader :=
  if count = 0 then r else r.seekToBit (r.position + count * 8)

/-- A look at the reader that may fail and moves nothing. -/
def look {α : Type} (f : BitReader → Except RarError α) : Reading BitReader α := fun r =>
  match f r with
  | .ok value => .ok value r
  | .error e => .error e r

instance : BitRead BitReader where
  bitsRemaining r := .ok r.bitsRemaining r
  hasBits r := .ok r.hasBits r
  hasExactBits bits r := .ok (decide (r.bitsRemaining ≥ bits)) r
  position := position
  readBits := readBits
  readByte := readByte
  readByteOrZero := readByteOrZero
  zeroBytesPastEof r := r.zeroBytesPastEof
  byteSpan _ r := .ok r.byteSpan r
  consumeByteSpan count r := .ok () (r.consumeByteSpan count)
  peek16Raw r := look peek16Raw (r.ensureBits 16)
  peek16LeftAligned r := look peek16LeftAligned (r.ensureBits 16)
  consumeBits := consumeBits
  skipBits := skipBits
  alignByte r := .ok () r.alignByte

/-- The reader stands at the cursor: what it has loaded ends on a byte, and the accumulator holds
the bits from the cursor up to there. -/
structure Reads (r : BitReader) (c : Cursor) : Prop where
  data : r.data = c.data
  aligned : 8 * r.bytePos = c.pos + r.accBits
  loaded : r.bytePos ≤ c.data.length
  window : Window r.acc r.accBits (bit c.data) c.pos
  zeros : r.zeroBytesPastEof = c.zeros

variable {r : BitReader} {c : Cursor} {count : Nat}

theorem Reads.bitsRemaining (reads : Reads r c) : r.bitsRemaining = c.remaining := by
  have aligned := reads.aligned
  have loaded := reads.loaded
  unfold BitReader.bitsRemaining remaining
  rw [reads.data]
  omega

theorem Reads.position (reads : Reads r c) : r.position = c.pos := by
  have aligned := reads.aligned
  unfold BitReader.position
  omega

section
variable (reads : Reads r c) (le : count ≤ r.accBits)
include reads le

theorem Reads.fits : count ≤ c.remaining := by
  rw [← reads.bitsRemaining]
  unfold BitReader.bitsRemaining
  omega

theorem Reads.shift :
    Reads (r.shift count) (c.advance count (reads.fits le)) where
  data := reads.data
  aligned := by
    have aligned := reads.aligned
    simp only [BitReader.shift, advance]
    omega
  loaded := reads.loaded
  window := reads.window.shift le
  zeros := reads.zeros

theorem Reads.top : r.top count = field (bit c.data) c.pos count :=
  reads.window.field_eq le

end

/-- What `refill` guarantees: seven whole bytes, or everything that is left. -/
def Ready (r : BitReader) : Prop := 56 ≤ r.accBits ∨ r.bytePos = r.data.length

theorem refillTail_reads (reads : Reads r c) (fuel : Nat) : Reads (refillTail fuel r) c := by
  induction fuel generalizing r with
  | zero => exact reads
  | succ fuel ih =>
    unfold refillTail
    split_ifs with more
    · have aligned := reads.aligned
      refine ih ⟨reads.data, by dsimp only; omega, by rw [← reads.data]; exact more.2, ?_, reads.zeros⟩
      refine reads.window.loadByte more.1 fun i below => ?_
      have quotient : (c.pos + r.accBits + i) / 8 = r.bytePos := by omega
      have remainder : (c.pos + r.accBits + i) % 8 = i := by omega
      simp only [bit, quotient, remainder, reads.data]
    · exact reads

theorem refillTail_ready (fuel : Nat) (loaded : r.bytePos ≤ r.data.length) (enough : 57 ≤ r.accBits + 8 * fuel) :
    Ready (refillTail fuel r) := by
  induction fuel generalizing r with
  | zero => exact .inl (by rw [refillTail]; omega)
  | succ fuel ih =>
    unfold refillTail
    split_ifs with done
    · grind
    · by_cases full : 56 ≤ r.accBits
      · exact .inl full
      · exact .inr (by omega)

theorem Reads.refill (reads : Reads r c) : Reads r.refill c ∧ Ready r.refill := by
  unfold BitReader.refill
  by_cases full : r.accBits > 56
  · rw [if_pos full]
    exact ⟨reads, .inl (by omega)⟩
  rw [if_neg full]
  by_cases bulk : r.bytePos + 8 ≤ r.data.length
  · rw [if_pos bulk]
    have aligned := reads.aligned
    have credit := whole_bytes (Nat.not_lt.mp full)
    have narrow : r.accBits ||| 56 ≤ 64 := by
      omega
    refine ⟨⟨reads.data, ?_, ?_, ?_, reads.zeros⟩, .inl ?_⟩
    · dsimp only
      omega
    · rw [← reads.data]
      dsimp only
      omega
    · refine Window.weaken (Window.load reads.window fun i below => ?_) narrow
      have value := fromBeBytes_eq_field bulk
      rw [value, getMsbD_ofNat_field _ _ _ below, reads.data, aligned]
    · dsimp only
      omega
  · rw [if_neg bulk]
    have loaded := reads.data ▸ reads.loaded
    exact ⟨refillTail_reads reads 8, refillTail_ready 8 loaded (by omega)⟩

theorem Ready.short (ready : Ready r) (reads : Reads r c) (small : count ≤ 56) (less : r.accBits < count) :
    r.accBits = c.remaining := by
  have exhausted := ready.resolve_left (by omega)
  rw [← reads.bitsRemaining]
  unfold BitReader.bitsRemaining
  omega

theorem Reads.ensureBits (reads : Reads r c) (count : Nat) : Reads (r.ensureBits count) c := by
  unfold BitReader.ensureBits
  split
  · exact reads.refill.1
  · exact reads

/-- A request of at most 56 bits that `ensure_bits` leaves unanswered is past the end. -/
theorem Reads.ensureBits_short (reads : Reads r c) (small : count ≤ 56) (less : (r.ensureBits count).accBits < count) :
    (r.ensureBits count).accBits = c.remaining := by
  unfold BitReader.ensureBits at less ⊢
  by_cases low : r.accBits < count
  · rw [if_pos low] at less ⊢
    exact reads.refill.2.short reads.refill.1 small less
  · grind

theorem new_reads (data : List UInt8) : Reads (new data) (start data) := by
  have fresh : Reads ⟨data, 0, 0, 0, 0⟩ (start data) := ⟨rfl, rfl, Nat.zero_le _, Window.empty, rfl⟩
  exact fresh.refill.1

section Operations

theorem Reads.take (reads : Reads r c) (le : count ≤ r.accBits) :
    Agree Reads (.ok (r.top count) (r.shift count)) (take count c) := by
  rw [take_of_le (reads.fits le), reads.top le]
  exact .ok (reads.shift le)

theorem Reads.drop (reads : Reads r c) (le : count ≤ r.accBits) :
    Agree Reads (.ok () (r.shift count)) (drop count c) := by
  rw [drop_of_le (reads.fits le)]
  exact .ok (reads.shift le)

theorem Reads.take_short (reads : Reads r c) (all : r.accBits = c.remaining) (less : r.accBits < count)
    (e : RarError) : Agree Reads (.error e r) (Cursor.take count c) := by
  rw [take_of_lt (all ▸ less)]
  exact .error reads

theorem readBits_simulates (small : count ≤ 32) : Simulates Reads (readBits count) (Cursor.take count) := by
  intro r c reads
  unfold readBits
  by_cases none : count = 0
  · subst none
    exact .ok reads
  rw [if_neg none]
  by_cases low : r.accBits < count
  · rw [if_pos low]
    obtain ⟨filled, ready⟩ := reads.refill
    unfold readBitsRefill
    by_cases still : r.refill.accBits < count
    · simp only [if_pos still]
      exact filled.take_short (ready.short filled (by omega) still) still _
    · simp only [if_neg still]
      exact filled.take (Nat.not_lt.mp still)
  · rw [if_neg low]
    exact reads.take (Nat.not_lt.mp low)

theorem readByte_simulates : Simulates Reads readByte (UInt8.ofNat <$> take 8) := by
  intro r c reads
  show Agree Reads (readByte r) (EStateM.map UInt8.ofNat (take 8) c)
  have filled := reads.ensureBits 8
  unfold readByte EStateM.map
  by_cases short : (r.ensureBits 8).accBits < 8
  · have all := reads.ensureBits_short (by omega) short
    simp only [if_pos short, take_of_lt (all ▸ short)]
    exact .error filled
  · have enough := Nat.not_lt.mp short
    simp only [if_neg short, take_of_le (filled.fits enough), filled.top enough]
    exact .ok (filled.shift enough)

theorem readByteOrZero_simulates : Simulates Reads readByteOrZero BitRead.readByteOrZero := by
  intro r c reads
  have filled := reads.ensureBits 8
  unfold readByteOrZero
  by_cases short : (r.ensureBits 8).accBits < 8
  · have all := reads.ensureBits_short (by omega) short
    have past : ¬ 8 ≤ c.remaining := by omega
    simp only [if_pos short, BitRead.readByteOrZero, dif_neg past]
    exact .ok ⟨filled.data, filled.aligned, filled.loaded, filled.window, congrArg saturatingSucc filled.zeros⟩
  · have enough := Nat.not_lt.mp short
    simp only [if_neg short, BitRead.readByteOrZero, dif_pos (filled.fits enough), filled.top enough]
    exact .ok (filled.shift enough)

/-- Near the end of the string the peek shifts in zeros, which are the bits there. -/
theorem Reads.peek16 (reads : Reads r c) (mask : Nat → Nat)
    (short : r.accBits < 16 → r.accBits = c.remaining) :
    Agree Reads (look (BitReader.peek16 mask) r) (EStateM.map mask peek c) := by
  unfold look BitReader.peek16 EStateM.map peek
  rw [reads.bitsRemaining]
  by_cases enough : r.accBits ≥ 16
  · have some : ¬ c.remaining = 0 := by
      have fits := reads.fits enough
      omega
    have value : (r.acc >>> 48).toNat = field (bit c.data) c.pos 16 := reads.top enough
    simp only [if_pos enough, if_neg some, value]
    exact .ok reads
  · have all := short (Nat.not_le.mp enough)
    simp only [if_neg enough]
    by_cases none : c.remaining = 0
    · simp only [if_pos none]
      exact .error reads
    · have width : min 16 c.remaining = r.accBits := by omega
      have below : r.accBits < 16 := Nat.not_le.mp enough
      have pad := field_pad (bit c.data) c.pos (16 - r.accBits)
        fun i beyond => bit_of_remaining_le (all ▸ beyond)
      rw [Nat.add_sub_cancel' below.le, ← reads.top le_rfl] at pad
      have peeked : r.peekBits r.accBits = .ok (r.top r.accBits) := by
        simp only [peekBits, all, none, if_false, lt_irrefl]
      simp only [if_neg none, width, peeked, Except.map, if_pos below, pad]
      exact .ok reads

theorem peek16_simulates (mask : Nat → Nat) :
    Simulates Reads (fun r => look (peek16 mask) (r.ensureBits 16)) (mask <$> peek) :=
  fun _ _ reads => (reads.ensureBits 16).peek16 mask (reads.ensureBits_short (by omega))

theorem skipBits_simulates (count : Nat) : Simulates Reads (skipBits count) (drop count) := by
  intro r c reads
  unfold skipBits
  by_cases past : r.bitsRemaining < count
  · rw [if_pos past, drop_of_lt (reads.bitsRemaining ▸ past)]
    exact .error reads
  have fits : count ≤ c.remaining := reads.bitsRemaining ▸ Nat.not_lt.mp past
  rw [if_neg past]
  by_cases held : count ≤ r.accBits
  · have cleared : (if count < 64 then r.acc <<< count else 0) = r.acc <<< count := by
      grind
    rw [if_pos held, cleared]
    exact reads.drop held
  rw [if_neg held, drop_of_le fits]
  -- The accumulator and whole bytes are dropped first, then the rest of a byte.
  have aligned := reads.aligned
  have bound : count ≤ 8 * c.data.length - c.pos := fits
  dsimp only
  generalize whole : (count - r.accBits) / 8 = bytes
  have skipped : Reads { r with acc := 0, accBits := 0, bytePos := r.bytePos + bytes }
      (c.advance (r.accBits + 8 * bytes) (by unfold remaining; omega)) := by
    refine ⟨reads.data, ?_, ?_, Window.empty, reads.zeros⟩
    · dsimp only [advance]
      omega
    · dsimp only [advance]
      omega
  by_cases partly : 0 < count - r.accBits - bytes * 8
  · simp only [if_pos partly]
    obtain ⟨filled, ready⟩ := skipped.refill
    have next : count - r.accBits - bytes * 8 ≤ (c.advance (r.accBits + 8 * bytes) (by unfold remaining; omega)).remaining := by
      rw [advance_remaining]
      omega
    have enough : count - r.accBits - bytes * 8 ≤ (BitReader.refill
        { r with acc := 0, accBits := 0, bytePos := r.bytePos + bytes }).accBits := by
      by_contra less
      have all := ready.short filled (by omega) (Nat.not_le.mp less)
      omega
    have moved := filled.shift enough
    rw [advance_advance, advance_congr count (by omega)] at moved
    exact .ok moved
  · simp only [if_neg partly]
    rw [advance_congr count (by omega)] at skipped
    exact .ok skipped

theorem consumeBits_simulates (count : Nat) : Simulates Reads (consumeBits count) (drop count) := by
  intro r c reads
  unfold consumeBits
  by_cases none : count = 0
  · subst none
    exact .ok reads
  rw [if_neg none]
  by_cases held : r.accBits ≥ count
  · rw [if_pos held]
    exact reads.drop held
  rw [if_neg held]
  obtain ⟨filled, -⟩ := reads.refill
  by_cases enough : r.refill.accBits ≥ count
  · simp only [if_pos enough]
    exact filled.drop enough
  · simp only [if_neg enough]
    exact skipBits_simulates count _ _ filled

theorem Reads.alignByte (reads : Reads r c) : Reads r.alignByte (c.advance _ c.align_fits) := by
  unfold BitReader.alignByte
  rw [reads.position]
  by_cases aligned : c.pos % 8 = 0
  · rw [advance_congr 0 (by omega)]
    simp only [aligned, ne_eq, not_true_eq_false, if_false]
    exact reads
  · have filled := reads.ensureBits (8 - c.pos % 8)
    have enough : 8 - c.pos % 8 ≤ (r.ensureBits (8 - c.pos % 8)).accBits := by
      by_contra less
      have all := reads.ensureBits_short (by omega) (Nat.not_le.mp less)
      have room := c.align_fits
      omega
    simp only [ne_eq, aligned, not_false_eq_true, if_true, enough]
    rw [advance_congr (8 - c.pos % 8) (by omega)]
    exact filled.shift enough

theorem Reads.hasBits (reads : Reads r c) : r.hasBits = decide (0 < c.remaining) := by
  have aligned := reads.aligned
  have loaded := reads.loaded
  unfold BitReader.hasBits remaining
  rw [reads.data]
  refine decide_eq_decide.mpr ?_
  omega

theorem Reads.byteSpan (reads : Reads r c) :
    r.byteSpan = if c.pos % 8 = 0 then some (c.data.drop (c.pos / 8), true) else none := by
  unfold BitReader.byteSpan
  rw [reads.position, reads.data]
  split <;> simp_all

/-- Committing bytes of a lent span: the accumulator is dropped and loaded again at the new byte. -/
theorem Reads.consumeByteSpan (reads : Reads r c) (aligned : c.pos % 8 = 0) (fits : 8 * count ≤ c.remaining) :
    Reads (r.consumeByteSpan count) (c.advance (8 * count) fits) := by
  unfold BitReader.consumeByteSpan
  by_cases none : count = 0
  · subst none
    exact reads
  have offset : (c.pos + count * 8) % 8 = 0 := by omega
  have bound : 8 * count ≤ 8 * c.data.length - c.pos := fits
  simp only [if_neg none, seekToBit, reads.position, offset, ne_eq, not_true_eq_false, if_false]
  refine ⟨reads.data, ?_, ?_, Window.empty, reads.zeros⟩
  · simp only [advance, Nat.shiftRight_eq_div_pow]
    omega
  · simp only [advance, Nat.shiftRight_eq_div_pow]
    omega

end Operations

instance : LawfulBitRead BitReader where
  Reads := Reads
  position_eq := Reads.position
  zeros_eq := Reads.zeros
  hasBits r c reads := by
    show Agree Reads (.ok r.hasBits r) (.ok (decide (0 < c.remaining)) c)
    rw [reads.hasBits]
    exact .ok reads
  readBits := readBits_simulates
  readByte := readByte_simulates
  readByteOrZero := readByteOrZero_simulates
  peek16Raw := by
    have raw := peek16_simulates id
    rwa [id_map] at raw
  peek16LeftAligned := peek16_simulates _
  consumeBits _ := consumeBits_simulates _
  alignByte _ _ reads := .ok reads.alignByte

end BitReader
end Rarpar.Unrar

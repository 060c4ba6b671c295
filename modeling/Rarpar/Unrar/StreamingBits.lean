import Rarpar.Unrar.StreamingBitReader

namespace Rarpar.Unrar.StreamingBitReader
open BitString Simulation List Cursor StreamingBitReader

/-- The reader stands at the cursor, and its current fill holds the input from byte `base` on. Bits
of an earlier fill may still be in the accumulator. -/
structure ReadsFrom (r : StreamingBitReader) (c : Cursor) (base : Nat) : Prop where
  position : r.bitPos = c.pos
  buffer : c.data.drop base = r.buf ++ r.inner.rest
  placed : base + r.buf.length + r.inner.rest.length = c.data.length
  aligned : 8 * (base + r.bufPos) = c.pos + r.accBits
  within : r.bufPos ≤ r.buf.length
  ended : r.eof = true → r.inner.rest = []
  window : Window r.acc r.accBits (bit c.data) c.pos
  zeros : r.zeroBytesPastEof = c.zeros
  room : r.buf.length - r.bufPos + (r.accBits + 7) / 8 ≤ r.capacity
  wide : inputBufferSize + straddleHeadroom ≤ r.capacity

def Reads (r : StreamingBitReader) (c : Cursor) : Prop := ∃ base, ReadsFrom r c base

variable {r : StreamingBitReader} {c : Cursor} {base count : Nat}

theorem Reads.position (reads : Reads r c) : r.bitPos = c.pos := by
  obtain ⟨base, reads⟩ := reads
  exact reads.position

section
variable (reads : ReadsFrom r c base)
include reads

theorem ReadsFrom.remaining : c.remaining = r.buffered + 8 * r.inner.rest.length := by
  have aligned := reads.aligned
  have placed := reads.placed
  have within := reads.within
  unfold Cursor.remaining buffered
  omega

theorem ReadsFrom.bit_buffer {i : Nat} (inside : i < 8 * r.buf.length) :
    bit c.data (8 * base + i) = bit r.buf i := by
  rw [← bit_drop, reads.buffer, bit_append_left _ inside]

theorem ReadsFrom.fits (le : count ≤ r.accBits) : count ≤ c.remaining := by
  rw [reads.remaining]
  unfold buffered
  omega

theorem ReadsFrom.shift (le : count ≤ r.accBits) :
    ReadsFrom (r.shift count) (c.advance count (reads.fits le)) base where
  position := congrArg (· + count) reads.position
  buffer := reads.buffer
  placed := reads.placed
  aligned := by
    have aligned := reads.aligned
    simp only [StreamingBitReader.shift, advance]
    omega
  within := reads.within
  ended := reads.ended
  window := reads.window.shift le
  zeros := reads.zeros
  room := by
    have room := reads.room
    simp only [StreamingBitReader.shift]
    omega
  wide := reads.wide

theorem ReadsFrom.top (le : count ≤ r.accBits) :
    r.top count = field (bit c.data) c.pos count := reads.window.field_eq le

end

/-- The reader has seen the end of its input and holds no byte of it. -/
def Drained (r : StreamingBitReader) : Prop := r.eof = true ∧ r.bufPos = r.buf.length

/-- A fill starts where the last one ended. At most seven bytes are in the accumulator by then,
which is what the headroom is for. -/
theorem Reads.fillBuffer (reads : Reads r c) (short : r.accBits ≤ 56) :
    Reads r.fillBuffer c ∧ r.fillBuffer.accBits = r.accBits ∧
      (r.fillBuffer.bufPos < r.fillBuffer.buf.length ∨ Drained r.fillBuffer) := by
  obtain ⟨base, reads⟩ := reads
  unfold StreamingBitReader.fillBuffer
  by_cases kept : r.bufPos < r.buf.length ∨ r.eof = true
  · rw [if_pos kept]
    refine ⟨⟨base, reads⟩, rfl, ?_⟩
    by_cases more : r.bufPos < r.buf.length
    · exact .inl more
    · exact .inr ⟨kept.resolve_left more, le_antisymm reads.within (Nat.not_lt.mp more)⟩
  rw [if_neg kept]
  have wide := reads.wide
  have within := reads.within
  have aligned := reads.aligned
  have placed := reads.placed
  have open_ : r.eof = false := by simpa using fun ended => kept (.inr ended)
  have limit : 0 < r.fillLimit := by
    unfold fillLimit inputBufferSize straddleHeadroom at *
    omega
  have split := Source.read_split r.fillLimit r.inner
  have length := Source.read_length_le r.fillLimit r.inner
  have total := congrArg List.length split
  rw [length_append] at total
  refine ⟨⟨base + r.buf.length, ?_⟩, rfl, ?_⟩
  · refine ⟨reads.position, ?_, by dsimp only; omega, by dsimp only; omega, Nat.zero_le _, ?_, reads.window,
      reads.zeros, ?_, wide⟩
    · dsimp only
      rw [split, ← drop_drop, reads.buffer, drop_left]
    · intro ended
      have empty : (r.inner.read r.fillLimit).1 = [] := by simpa [open_] using ended
      have none := Source.read_nonempty limit empty
      rw [empty, nil_append, none] at split
      exact split
    · unfold fillLimit inputBufferSize straddleHeadroom at *
      dsimp only
      omega
  · by_cases empty : (r.inner.read r.fillLimit).1 = []
    · exact .inr ⟨by simp [empty], by simp [empty]⟩
    · exact .inl (length_pos_iff.mpr empty)

/-- What `refill` guarantees: seven whole bytes in the accumulator and more than them buffered, or
everything that is left. -/
def Ready (r : StreamingBitReader) : Prop := (56 ≤ r.accBits ∧ 57 ≤ r.buffered) ∨ Drained r

theorem refillSlow_reads (reads : Reads r c) (fuel : Nat) (enough : 57 ≤ r.accBits + 8 * fuel) :
    Reads (refillSlow fuel r) c ∧ Ready (refillSlow fuel r) := by
  induction fuel generalizing r with
  | zero => exact ⟨reads, .inl (by unfold buffered; rw [refillSlow]; omega)⟩
  | succ fuel ih =>
    unfold refillSlow
    by_cases more : r.accBits ≤ 56
    · rw [if_pos more]
      obtain ⟨⟨base, filled⟩, same, state⟩ := reads.fillBuffer more
      by_cases spent : r.fillBuffer.bufPos ≥ r.fillBuffer.buf.length
      · simp only [if_pos spent]
        exact ⟨⟨base, filled⟩, .inr (state.resolve_left (Nat.not_lt.mpr spent))⟩
      · simp only [if_neg spent]
        have inside := Nat.not_le.mp spent
        have aligned := filled.aligned
        have room := filled.room
        refine ih ⟨base, filled.position, filled.buffer, filled.placed, ?_, inside, filled.ended, ?_,
          filled.zeros, ?_, filled.wide⟩ ?_
        · dsimp only
          omega
        · refine filled.window.loadByte (same ▸ more) fun i below => ?_
          have index : c.pos + r.fillBuffer.accBits + i = 8 * base + (8 * r.fillBuffer.bufPos + i) := by omega
          have quotient : (8 * r.fillBuffer.bufPos + i) / 8 = r.fillBuffer.bufPos := by omega
          have remainder : (8 * r.fillBuffer.bufPos + i) % 8 = i := by omega
          rw [index, filled.bit_buffer (by omega)]
          simp only [bit, quotient, remainder]
        · dsimp only
          omega
        · dsimp only
          omega
    · rw [if_neg more]
      exact ⟨reads, .inl (by unfold buffered; omega)⟩

theorem Reads.refill (reads : Reads r c) : Reads r.refill c ∧ Ready r.refill := by
  unfold StreamingBitReader.refill
  by_cases full : r.accBits > 56
  · rw [if_pos full]
    exact ⟨reads, .inl (by unfold buffered; omega)⟩
  rw [if_neg full]
  by_cases bulk : r.bufPos + 8 ≤ r.buf.length
  · rw [if_pos bulk]
    obtain ⟨base, reads⟩ := reads
    have aligned := reads.aligned
    have room := reads.room
    have credit := whole_bytes (Nat.not_lt.mp full)
    refine ⟨⟨base, reads.position, reads.buffer, reads.placed, ?_, ?_, reads.ended, ?_, reads.zeros, ?_,
      reads.wide⟩, .inl ?_⟩
    · dsimp only
      omega
    · dsimp only
      omega
    · refine Window.weaken (Window.load reads.window fun i below => ?_) (by dsimp only; omega)
      have index : c.pos + r.accBits + i = 8 * base + (8 * r.bufPos + i) := by omega
      rw [fromBeBytes_eq_field bulk, getMsbD_ofNat_field _ _ _ below, index, reads.bit_buffer (by omega)]
    · dsimp only
      omega
    · unfold buffered
      dsimp only
      omega
  · rw [if_neg bulk]
    exact refillSlow_reads reads 8 (by omega)

theorem Reads.refillIfNeeded (reads : Reads r c) : Reads r.refillIfNeeded c := by
  unfold StreamingBitReader.refillIfNeeded
  split
  · exact reads.refill.1
  · exact reads

theorem ReadsFrom.drained (reads : ReadsFrom r c base) (drained : Drained r) : r.accBits = c.remaining := by
  rw [reads.remaining, reads.ended drained.1]
  unfold buffered
  rw [drained.2]
  simp

theorem Ready.short (ready : Ready r) (small : count ≤ 56) (less : r.accBits < count) : Drained r :=
  ready.resolve_left (by omega)

theorem Drained.buffered (drained : Drained r) : r.buffered = r.accBits := by
  unfold StreamingBitReader.buffered
  rw [drained.2]
  simp

section Operations

section
variable (reads : Reads r c) (le : count ≤ r.accBits)
include reads le

/-- Bits the accumulator holds. -/
theorem Reads.held : ∃ fits : count ≤ c.remaining,
    r.top count = field (bit c.data) c.pos count ∧ Reads (r.shift count) (c.advance count fits) := by
  obtain ⟨base, reads⟩ := reads
  exact ⟨reads.fits le, reads.top le, base, reads.shift le⟩

theorem Reads.take : Agree Reads (.ok (r.top count) (r.shift count).refillIfNeeded) (take count c) := by
  obtain ⟨fits, value, moved⟩ := reads.held le
  rw [take_of_le fits, value]
  exact .ok moved.refillIfNeeded

theorem Reads.drop : Agree Reads (.ok () (r.shift count).refillIfNeeded) (drop count c) := by
  obtain ⟨fits, -, moved⟩ := reads.held le
  rw [drop_of_le fits]
  exact .ok moved.refillIfNeeded

end

theorem Reads.short (reads : Reads r c) (drained : Drained r) (less : r.accBits < count) : c.remaining < count := by
  obtain ⟨base, reads⟩ := reads
  exact reads.drained drained ▸ less

theorem Reads.starved (reads : Reads r c) (small : count ≤ 32) (few : ¬ r.refill.accBits ≥ count) :
    (r.refill.buffered < count ∧ r.refill.eof = true) ∧ c.remaining < count := by
  obtain ⟨filled, ready⟩ := reads.refill
  have less := Nat.not_le.mp few
  have drained := ready.short (by omega) less
  exact ⟨⟨drained.buffered ▸ less, drained.1⟩, filled.short drained less⟩

theorem readBits_simulates (small : count ≤ 32) : Simulates Reads (readBits count) (take count) := by
  intro r c reads
  unfold readBits
  by_cases none : count = 0
  · subst none
    exact .ok reads
  rw [if_neg none]
  by_cases held : r.accBits ≥ count
  · rw [if_pos held]
    exact reads.take held
  rw [if_neg held]
  have filled := reads.refill.1
  unfold readBitsRefill
  by_cases enough : r.refill.accBits ≥ count
  · simp only [if_pos enough]
    exact filled.take enough
  · obtain ⟨ended, short⟩ := reads.starved small enough
    simp only [if_neg enough, if_pos ended, take_of_lt short]
    exact .error filled

theorem consumeBits_simulates (small : count ≤ 32) : Simulates Reads (consumeBits count) (drop count) := by
  intro r c reads
  unfold consumeBits
  by_cases none : count = 0
  · subst none
    exact .ok reads
  rw [if_neg none]
  by_cases held : r.accBits ≥ count
  · rw [if_pos held]
    exact reads.drop held
  rw [if_neg held]
  have filled := reads.refill.1
  by_cases enough : r.refill.accBits ≥ count
  · simp only [if_pos enough]
    exact filled.drop enough
  · obtain ⟨ended, short⟩ := reads.starved small enough
    simp only [if_neg enough, if_pos ended, drop_of_lt short]
    exact .error filled

theorem Reads.ensureByte (reads : Reads r c) :
    Reads r.ensureByte c ∧ (r.ensureByte.accBits < 8 → Drained r.ensureByte) := by
  unfold StreamingBitReader.ensureByte
  by_cases low : r.accBits < 8
  · rw [if_pos low]
    exact ⟨reads.refill.1, reads.refill.2.short (by omega)⟩
  · grind

theorem readByte_simulates : Simulates Reads readByte (UInt8.ofNat <$> take 8) := by
  intro r c reads
  show Agree Reads (readByte r) (EStateM.map UInt8.ofNat (take 8) c)
  obtain ⟨filled, spent⟩ := reads.ensureByte
  unfold readByte EStateM.map
  by_cases less : r.ensureByte.accBits < 8
  · simp only [if_pos less, take_of_lt (filled.short (spent less) less)]
    exact .error filled
  · obtain ⟨fits, value, moved⟩ := filled.held (Nat.not_lt.mp less)
    simp only [if_neg less, take_of_le fits, value]
    exact .ok moved

theorem readByteOrZero_simulates : Simulates Reads readByteOrZero BitRead.readByteOrZero := by
  intro r c reads
  obtain ⟨filled, spent⟩ := reads.ensureByte
  unfold readByteOrZero
  by_cases less : r.ensureByte.accBits < 8
  · have past : ¬ 8 ≤ c.remaining := Nat.not_le.mpr (filled.short (spent less) less)
    obtain ⟨base, filled⟩ := filled
    simp only [if_pos less, BitRead.readByteOrZero, dif_neg past]
    exact .ok ⟨base, { filled with zeros := congrArg saturatingSucc filled.zeros }⟩
  · obtain ⟨fits, value, moved⟩ := filled.held (Nat.not_lt.mp less)
    simp only [if_neg less, BitRead.readByteOrZero, dif_pos fits, value]
    exact .ok moved

theorem Reads.peek16 (reads : Reads r c) (enough : r.accBits ≥ 16) (mask : Nat → Nat) :
    Agree Reads (.ok (mask (r.acc >>> 48).toNat) r) (EStateM.map mask peek c) := by
  obtain ⟨fits, value, -⟩ := reads.held enough
  have some : ¬ c.remaining = 0 := by omega
  have value : (r.acc >>> 48).toNat = field (bit c.data) c.pos 16 := value
  simp only [EStateM.map, peek, if_neg some, value]
  exact .ok reads

theorem peek16_simulates (mask : Nat → Nat) : Simulates Reads (peek16 mask) (mask <$> peek) := by
  intro r c reads
  show Agree Reads (peek16 mask r) (EStateM.map mask peek c)
  unfold peek16
  by_cases held : r.accBits ≥ 16
  · rw [if_pos held]
    exact reads.peek16 held mask
  rw [if_neg held]
  obtain ⟨filled, ready⟩ := reads.refill
  by_cases enough : r.refill.accBits ≥ 16
  · simp only [if_pos enough]
    exact filled.peek16 enough mask
  have less := Nat.not_le.mp enough
  have drained := ready.short (by omega) less
  obtain ⟨base, filled⟩ := filled
  have all := filled.drained drained
  simp only [if_neg enough, drained.buffered]
  by_cases none : r.refill.accBits = 0
  · simp only [if_pos none, EStateM.map, peek, ← all]
    exact .error ⟨base, filled⟩
  · -- The bits that are left, then the zeros past the end of the string.
    have width : min 16 r.refill.accBits = r.refill.accBits := by omega
    have pad := field_pad (bit c.data) c.pos (16 - r.refill.accBits)
      fun i beyond => bit_of_remaining_le (all ▸ beyond)
    rw [Nat.add_sub_cancel' less.le, ← filled.top le_rfl] at pad
    simp only [if_neg none, width, bind, EStateM.bind, peekBits, ge_iff_le, le_refl, if_true, pure, EStateM.pure,
      EStateM.map, peek, ← all, if_pos less, pad]
    exact .ok ⟨base, filled⟩

theorem hasBits_simulates : Simulates Reads hasBits BitRead.hasBits := by
  intro r c reads
  show Agree Reads (hasBits r) (.ok (decide (0 < c.remaining)) c)
  unfold hasBits
  by_cases some : r.accBits > 0 ∨ r.bufPos < r.buf.length
  · obtain ⟨base, reads⟩ := reads
    have positive : 0 < c.remaining := by
      rw [reads.remaining]
      unfold buffered
      omega
    simp only [if_pos some, positive, decide_true]
    exact .ok ⟨base, reads⟩
  rw [if_neg some]
  by_cases ended : r.eof = true
  · obtain ⟨base, reads⟩ := reads
    have none : c.remaining = 0 := by
      rw [reads.remaining, reads.ended ended]
      unfold buffered
      simp only [length_nil]
      omega
    simp only [ended, if_true, none, lt_irrefl, decide_false]
    exact .ok ⟨base, reads⟩
  · obtain ⟨filled, same, state⟩ := reads.fillBuffer (by omega)
    simp only [if_neg ended]
    have answer : decide (r.fillBuffer.bufPos < r.fillBuffer.buf.length) = decide (0 < c.remaining) := by
      obtain ⟨base, filled⟩ := filled
      refine decide_eq_decide.mpr ⟨fun more => ?_, fun more => ?_⟩
      · rw [filled.remaining]
        unfold buffered
        omega
      · refine state.resolve_right fun drained => ?_
        have all := filled.drained drained
        omega
    rw [answer]
    exact .ok filled

theorem alignByte_simulates : Simulates Reads alignByte BitRead.alignByte := by
  intro r c reads
  show Agree Reads (alignByte r) (.ok () (c.advance _ c.align_fits))
  have place := reads.position
  unfold alignByte
  rw [place]
  by_cases aligned : c.pos % 8 = 0
  · rw [advance_congr 0 (by omega)]
    simp only [aligned, ne_eq, not_true_eq_false, if_false]
    exact .ok reads
  · have consumed := consumeBits_simulates (show 8 - c.pos % 8 ≤ 32 by omega) r c reads
    have room := c.align_fits
    rw [drop_of_le (by omega)] at consumed
    rw [advance_congr (8 - c.pos % 8) (by omega)]
    simpa only [ne_eq, aligned, not_false_eq_true, if_true] using consumed

/-- A skip that the input covers, and one past its end: the whole steps that fit are consumed before it fails. -/
theorem skipSteps_spec {fuel : Nat} (reads : Reads r c) (le : count ≤ fuel) :
    (∀ fits : count ≤ c.remaining, ∃ r', skipSteps fuel count r = .ok () r' ∧ Reads r' (c.advance count fits)) ∧
      (c.remaining < count → ∃ e r', skipSteps fuel count r = .error e r' ∧
        Reads r' (c.advance (32 * (c.remaining / 32)) (by omega))) := by
  induction fuel generalizing r c count with
  | zero =>
    obtain rfl : count = 0 := by omega
    exact ⟨fun _ => ⟨r, rfl, reads⟩, nofun⟩
  | succ fuel ih =>
    unfold skipSteps
    by_cases none : count = 0
    · subst none
      exact ⟨fun _ => ⟨r, rfl, reads⟩, nofun⟩
    rw [if_neg none]
    have step := consumeBits_simulates (show min count 32 ≤ 32 by omega) r c reads
    generalize stepped : consumeBits (min count 32) r = result at step
    by_cases enough : min count 32 ≤ c.remaining
    · rw [drop_of_le enough] at step
      cases step with
      | ok moved =>
        have left := advance_remaining c enough
        obtain ⟨covered, past⟩ := ih moved (show count - min count 32 ≤ fuel by omega)
        constructor
        · intro fits
          obtain ⟨r', run, final⟩ := covered (by omega)
          rw [advance_advance, advance_congr count (by omega)] at final
          exact ⟨r', by simpa only [bind, EStateM.bind, stepped] using run, final⟩
        · intro beyond
          obtain ⟨e, r', run, final⟩ := past (by omega)
          rw [advance_advance, advance_congr (32 * (c.remaining / 32)) (by omega)] at final
          exact ⟨e, r', by simpa only [bind, EStateM.bind, stepped] using run, final⟩
    · rw [drop_of_lt (by omega)] at step
      cases step with
      | error stays =>
        refine ⟨fun fits => by omega, fun _ => ?_⟩
        rw [advance_congr 0 (by omega)]
        exact ⟨_, _, by simp only [bind, EStateM.bind, stepped]; rfl, stays⟩

/-- What `has_exact_bits` answers: it sees the accumulator and the current fill only, and together
they hold 57 bits or the rest of the input. -/
theorem hasExactBits_spec (reads : Reads r c) (bits : Nat) :
    ∃ answer r', hasExactBits bits r = .ok answer r' ∧ Reads r' c ∧ (answer = true → bits ≤ c.remaining) ∧
      (bits ≤ 57 → answer = decide (bits ≤ c.remaining)) := by
  obtain ⟨filled, ready⟩ := reads.refill
  refine ⟨_, _, rfl, filled, ?_, ?_⟩
  · intro yes
    have enough := of_decide_eq_true yes
    obtain ⟨base, filled⟩ := filled
    rw [filled.remaining]
    omega
  · intro small
    obtain ⟨base, filled⟩ := filled
    refine decide_eq_decide.mpr ?_
    rw [filled.remaining]
    rcases ready with full | drained
    · omega
    · rw [filled.ended drained.1]
      simp

/-- The whole bytes left in the accumulator are the next bytes of the input. -/
theorem ReadsFrom.held (reads : ReadsFrom r c base) (aligned : c.pos % 8 = 0) :
    ((range (r.accBits / 8)).map fun index => UInt8.ofNat (r.acc >>> (56 - 8 * index)).toNat) =
      (c.data.drop (c.pos / 8)).take (r.accBits / 8) := by
  have bound := reads.fits le_rfl
  unfold Cursor.remaining at bound
  apply ext_getElem
  · grind
  intro index below _
  have index_lt : index < r.accBits / 8 := by simpa using below
  have leading := reads.window.field_eq (show 8 * index + 8 ≤ r.accBits by omega)
  have split := field_add (bit c.data) c.pos (8 * index) 8
  have byte := field_byte c.data (c.pos / 8 + index)
  have start : 8 * (c.pos / 8 + index) = c.pos + 8 * index := by omega
  rw [start] at byte
  have value : (c.data.getD (c.pos / 8 + index) 0).toNat = (r.acc >>> (56 - 8 * index)).toNat % 2 ^ 8 := by
    simp_all
  have present : c.pos / 8 + index < c.data.length := by omega
  rw [getD_eq_getElem _ _ present] at value
  simp only [getElem_map, getElem_range, getElem_take, getElem_drop]
  apply UInt8.toNat_inj.mp
  rw [UInt8.toNat_ofNat', value]

/-- A reader whose accumulator is empty, at the start of its buffer. -/
structure Laid (r : StreamingBitReader) : Prop where
  accBits : r.accBits = 0
  bufPos : r.bufPos = 0

theorem ReadsFrom.relocate (reads : ReadsFrom r c base) (aligned : c.pos % 8 = 0) :
    ReadsFrom r.relocate c (c.pos / 8) := by
  have room := reads.room
  have place := reads.aligned
  have placed := reads.placed
  have within := reads.within
  have tail : c.data.drop (c.pos / 8 + r.accBits / 8) = r.buf.drop r.bufPos ++ r.inner.rest := by
    have start : c.pos / 8 + r.accBits / 8 = base + r.bufPos := by omega
    rw [start, ← drop_drop, reads.buffer, drop_append_of_le_length within]
  have length : (r.relocate).buf.length = r.accBits / 8 + (r.buf.length - r.bufPos) := by
    simp [StreamingBitReader.relocate]
  refine ⟨reads.position, ?_, ?_, ?_, Nat.zero_le _, reads.ended, Window.empty, reads.zeros, ?_, reads.wide⟩
  · grind [relocate, reads.held, append_assoc, drop_drop, take_append_drop]
  · rw [length]
    simp only [StreamingBitReader.relocate]
    omega
  · simp only [StreamingBitReader.relocate]
    omega
  · rw [length]
    simp only [StreamingBitReader.relocate]
    omega

/-- One more read keeps the layout, and brings a byte unless it reports the end. -/
theorem ReadsFrom.readMore (reads : ReadsFrom r c base) (laid : Laid r) (open_ : r.eof = false)
    (space : r.buf.length < r.capacity) :
    ReadsFrom r.readMore c base ∧ Laid r.readMore ∧
      (r.readMore.inner.rest.length < r.inner.rest.length ∨ r.readMore.eof = true) := by
  have wide := reads.wide
  have placed := reads.placed
  have positive : 0 < min (r.buf.length + r.fillLimit) r.capacity - r.buf.length := by
    unfold fillLimit inputBufferSize straddleHeadroom at *
    omega
  unfold StreamingBitReader.readMore
  dsimp only
  generalize asked : min _ r.capacity - r.buf.length = limit at positive ⊢
  have split := Source.read_split limit r.inner
  have length := Source.read_length_le limit r.inner
  have total := congrArg List.length split
  rw [length_append] at total
  refine ⟨⟨reads.position, ?_, ?_, reads.aligned, ?_, ?_, reads.window, reads.zeros, ?_, wide⟩,
    ⟨laid.accBits, laid.bufPos⟩, ?_⟩
  · rw [append_assoc, split, reads.buffer]
  · grind
  · rw [length_append]
    exact reads.within.trans (Nat.le_add_right _ _)
  · intro ended
    have empty : (r.inner.read limit).1 = [] := by simpa [open_] using ended
    have none := Source.read_nonempty positive empty
    rw [empty, nil_append, none] at split
    exact split
  · rw [length_append, laid.accBits]
    dsimp only
    omega
  · by_cases empty : (r.inner.read limit).1 = []
    · exact .inr (by simp [empty])
    · have some := length_pos_iff.mpr empty
      exact .inl (by omega)

theorem topUp_of_eof {min fuel : Nat} (ended : r.eof = true) : topUp min fuel r = r := by
  cases fuel with
  | zero => rfl
  | succ fuel => exact if_neg (by simp [ended])

/-- The loop ends with the bytes asked for or at the end of the input. -/
theorem ReadsFrom.topUp {min fuel : Nat} (reads : ReadsFrom r c base) (laid : Laid r) (fits : min ≤ r.capacity)
    (enough : r.inner.rest.length < fuel) :
    ReadsFrom (topUp min fuel r) c base ∧ Laid (topUp min fuel r) ∧
      (min ≤ (topUp min fuel r).buf.length ∨ (topUp min fuel r).eof = true) := by
  induction fuel generalizing r with
  | zero => omega
  | succ fuel ih =>
    unfold topUp
    by_cases more : r.buf.length < min ∧ r.eof = false
    · rw [if_pos more]
      obtain ⟨next, same, progress⟩ := reads.readMore laid more.2 (more.1.trans_le fits)
      rcases progress with shorter | ended
      · exact ih next same fits (by omega)
      · rw [topUp_of_eof ended]
        exact ⟨next, same, .inr ended⟩
    · grind

/-- The bytes from the cursor on that the buffer holds in one piece. -/
def Lent (r : StreamingBitReader) (span : List UInt8) : Prop :=
  ∃ bit, r.bufferBitPosition = some bit ∧ r.buf.drop (bit / 8) = span

theorem ReadsFrom.lent {bit : Nat} (reads : ReadsFrom r c base) (aligned : c.pos % 8 = 0)
    (here : r.bufferBitPosition = some bit) : c.data.drop (c.pos / 8) = r.buf.drop (bit / 8) ++ r.inner.rest := by
  have place := reads.aligned
  have within := reads.within
  unfold bufferBitPosition at here
  by_cases covered : r.accBits ≤ r.bufPos * 8
  · simp only [if_pos covered, Option.some.injEq] at here
    have start : c.pos / 8 = base + bit / 8 := by omega
    rw [start, ← drop_drop, reads.buffer, drop_append_of_le_length (by omega)]
  · simp [covered] at here

theorem byteSpan_unaligned (reads : Reads r c) (odd : c.pos % 8 ≠ 0) (min : Nat) : byteSpan min r = .ok none r := by
  have place := reads.position
  unfold byteSpan
  rw [place, if_pos odd]

/-- A lent span starts at the cursor, has the bytes asked for or is all that is left, and is all
that is left when the flag says so. -/
theorem byteSpan_spec {min : Nat} (reads : Reads r c) (aligned : c.pos % 8 = 0)
    (fits : min ≤ inputBufferSize + straddleHeadroom) :
    ∃ span last r', byteSpan min r = .ok (some (span, last)) r' ∧ Reads r' c ∧ Lent r' span ∧
      span <+: c.data.drop (c.pos / 8) ∧ (last = true → span = c.data.drop (c.pos / 8)) ∧
      (min ≤ span.length ∨ last = true) := by
  have place : ¬ r.bitPos % 8 ≠ 0 := by rw [reads.position]; omega
  obtain ⟨base, reads⟩ := reads
  -- Either the current fill serves the span, or the unread bytes are gathered first.
  have gathered : ∃ span last r', (EStateM.Result.ok (some ((r.gatherByteSpan min).buf, (r.gatherByteSpan min).eof))
      (r.gatherByteSpan min) : EStateM.Result RarError _ _) = .ok (some (span, last)) r' ∧ Reads r' c ∧ Lent r' span ∧
      span <+: c.data.drop (c.pos / 8) ∧ (last = true → span = c.data.drop (c.pos / 8)) ∧
      (min ≤ span.length ∨ last = true) := by
    have moved := reads.relocate aligned
    obtain ⟨filled, laid, done⟩ := moved.topUp ⟨rfl, rfl⟩ (fits.trans moved.wide)
      (Nat.lt_succ_self r.inner.rest.length)
    have whole := filled.buffer
    refine ⟨_, _, _, rfl, ⟨_, filled⟩, ⟨0, ?_, rfl⟩, ⟨_, whole.symm⟩, ?_, done⟩
    · simp [bufferBitPosition, gatherByteSpan, laid.accBits, laid.bufPos]
    · intro ended
      rw [whole, filled.ended ended, append_nil]
      rfl
  unfold byteSpan
  rw [if_neg place]
  cases here : r.bufferBitPosition with
  | none => exact gathered
  | some bit =>
    by_cases serves : min ≤ r.buf.length - bit / 8
    · simp only [if_pos serves]
      have whole := reads.lent aligned here
      refine ⟨_, _, _, rfl, ⟨base, reads⟩, ⟨bit, here, rfl⟩, ⟨_, whole.symm⟩, ?_, .inl ?_⟩
      · intro ended
        rw [whole, reads.ended ended, append_nil]
      · rwa [length_drop]
    · simp only [if_neg serves]
      exact gathered

/-- Committing bytes of the span that was lent last. -/
theorem Reads.consumeByteSpan {span : List UInt8} (reads : Reads r c) (aligned : c.pos % 8 = 0) (lent : Lent r span)
    (le : count ≤ span.length) (fits : 8 * count ≤ c.remaining) :
    Reads (r.consumeByteSpan count) (c.advance (8 * count) fits) := by
  obtain ⟨bit, here, rfl⟩ := lent
  obtain ⟨base, reads⟩ := reads
  unfold StreamingBitReader.consumeByteSpan
  by_cases none : count = 0
  · subst none
    exact ⟨base, reads⟩
  have place := reads.aligned
  have room := reads.room
  have covered : r.accBits ≤ r.bufPos * 8 := by
    grind [bufferBitPosition]
  have bitEq : r.bufPos * 8 - r.accBits = bit := by
    simpa [bufferBitPosition, covered] using here
  rw [length_drop] at le
  have offset : (bit + count * 8) % 8 = 0 := by omega
  have byte : (bit + count * 8) >>> 3 = bit / 8 + count := by
    omega
  simp only [if_neg none, here, seekToBufferBit, offset, ne_eq, not_true_eq_false, if_false, byte]
  refine ⟨base, ?_, reads.buffer, reads.placed, ?_, ?_, reads.ended, Window.empty, reads.zeros, ?_, reads.wide⟩
  · have start := reads.position
    simp only [advance]
    omega
  · simp only [advance]
    omega
  · dsimp only
    omega
  · dsimp only
    omega

end Operations

theorem withBuffer_reads (data : List UInt8) (offered : Nat → Nat) (length : Nat) :
    Reads (withBuffer (Source.new data offered) length) (start data) := by
  refine ⟨0, rfl, rfl, ?_, rfl, le_rfl, fun ended => ?_, Window.empty, rfl, ?_, ?_⟩
  · simp [withBuffer, Source.new, start]
  · exact absurd ended Bool.false_ne_true
  · simp [withBuffer]
  · unfold withBuffer
    dsimp only
    split <;> omega

instance : LawfulBitRead StreamingBitReader where
  Reads := Reads
  position_eq := Reads.position
  zeros_eq reads := reads.choose_spec.zeros
  hasBits := hasBits_simulates
  readBits := readBits_simulates
  readByte := readByte_simulates
  readByteOrZero := readByteOrZero_simulates
  peek16Raw := by
    have raw := peek16_simulates id
    rwa [id_map] at raw
  peek16LeftAligned := peek16_simulates _
  consumeBits := consumeBits_simulates
  alignByte := alignByte_simulates

end Rarpar.Unrar.StreamingBitReader

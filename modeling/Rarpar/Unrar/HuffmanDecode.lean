import Rarpar.Unrar.HuffmanBuild
import Rarpar.Unrar.StreamingBits

namespace Rarpar.Unrar.HuffmanTable
open BitString CanonicalCode Simulation BitRead

variable {lengths : List Nat} {t : HuffmanTable} {bitField l : Nat}

section Lookup

theorem Canonical.firstAbove (canonical : Canonical lengths t) (positive : 0 < l) (le : l ≤ 15)
    (first : firstCode lengths l ≤ bitField / 2 ^ (16 - l)) (last : bitField / 2 ^ (16 - l) < limit lengths l) :
    FirstAbove t.decodeLen bitField l := by
  obtain ⟨passed, above⟩ := between_thresholds 16 positive (by omega) first last
  refine ⟨positive, le, fun i _ below => ?_, ?_⟩
  · rw [canonical.thresholds i (by omega)]
    exact passed i below
  · rw [canonical.thresholds l le]
    exact above

section
variable (canonical : Canonical lengths t) (first : FirstAbove t.decodeLen bitField l)
include canonical first

/-- A field whose length is known points at a symbol of that length. -/
theorem Canonical.leading :
    firstCode lengths l ≤ bitField / 2 ^ (16 - l) ∧ bitField / 2 ^ (16 - l) < limit lengths l := by
  have positive := first.positive
  have le := first.le
  constructor
  · rw [Nat.le_div_iff_mul_le (Nat.two_pow_pos _), ← threshold_pred lengths positive (by omega)]
    by_cases one : l = 1
    · subst one
      simp [threshold, limit, firstCode, count]
    · rw [← canonical.thresholds (l - 1) (by omega)]
      exact first.below (l - 1) (by omega) (by omega)
  · have above := first.above
    rw [canonical.thresholds l le] at above
    exact (Nat.div_lt_iff_lt_mul (Nat.two_pow_pos _)).mpr above

theorem Canonical.slot_eq (word : bitField < 2 ^ 16) :
    slot t.decodeLen t.decodePos bitField l = t.decodePos l + (bitField / 2 ^ (16 - l) - firstCode lengths l) := by
  have positive := first.positive
  have le := first.le
  have start : t.decodeLen (l - 1) = firstCode lengths l * 2 ^ (16 - l) := by
    rw [canonical.thresholds (l - 1) (by omega), threshold_pred lengths positive (by omega)]
  have below : firstCode lengths l * 2 ^ (16 - l) ≤ bitField :=
    (Nat.mul_le_mul_right _ (canonical.leading first).1).trans (Nat.div_mul_le_self _ _)
  have distance : wrappingSub bitField (t.decodeLen (l - 1)) = bitField - 2 ^ (16 - l) * firstCode lengths l := by
    rw [wrappingSub, start, Nat.mul_comm (2 ^ (16 - l))]
    omega
  rw [slot, distance, Nat.shiftRight_eq_div_pow, Nat.sub_mul_div]

theorem Canonical.slot_lt (word : bitField < 2 ^ 16) : slot t.decodeLen t.decodePos bitField l < t.numSymbols := by
  obtain ⟨lower, upper⟩ := canonical.leading first
  rw [canonical.slot_eq first word, canonical.numSymbols]
  refine canonical.listed l first.positive first.le _ ?_
  unfold limit at upper
  omega

end

theorem find_first {p : Nat → Bool} (start n : Nat) (lower : start ≤ l) (upper : l ≤ start + n)
    (before : ∀ i, start ≤ i → i < l → p i = false) (here : l < start + n → p l = true) :
    ((List.range' start n).find? p).getD (start + n) = l := by
  induction n generalizing start with
  | zero =>
    grind
  | succ n ih =>
    rw [List.range'_succ]
    rcases lower.lt_or_eq with less | rfl
    · grind
    · grind

/-- The prefix that indexes the quick table has the same first length as the whole field. -/
theorem Canonical.quick_prefix (canonical : Canonical lengths t) (first : FirstAbove t.decodeLen bitField l)
    (short : l ≤ t.quickBits) :
    FirstAbove t.decodeLen ((bitField >>> (16 - t.quickBits)) <<< (16 - t.quickBits)) l ∧
      ((bitField >>> (16 - t.quickBits)) <<< (16 - t.quickBits)) / 2 ^ (16 - l) = bitField / 2 ^ (16 - l) := by
  obtain ⟨-, upper⟩ := canonical.quickBits
  rw [Nat.shiftRight_eq_div_pow, Nat.shiftLeft_eq]
  have le := first.le
  have split : 2 ^ (16 - l) = 2 ^ (16 - t.quickBits) * 2 ^ (t.quickBits - l) := by
    rw [← Nat.pow_add]
    congr 1
    omega
  have same : bitField / 2 ^ (16 - t.quickBits) * 2 ^ (16 - t.quickBits) / 2 ^ (16 - l) = bitField / 2 ^ (16 - l) := by
    rw [split, ← Nat.div_div_eq_div_mul, Nat.mul_div_cancel _ (Nat.two_pow_pos _), Nat.div_div_eq_div_mul]
  obtain ⟨lower, limit_⟩ := canonical.leading first
  exact ⟨canonical.firstAbove first.positive le (by rwa [same]) (by rwa [same]), same⟩

/-- Both paths find the first length whose threshold is above the field, and its symbol. -/
theorem Canonical.lookup_eq (canonical : Canonical lengths t) (small : lengths.length ≤ maxNumSymbols)
    (first : FirstAbove t.decodeLen bitField l) (word : bitField < 2 ^ 16) :
    t.lookup bitField = (l, t.decodeNum (slot t.decodeLen t.decodePos bitField l), decide (l ≤ t.quickBits)) ∧
      t.symbolForBits bitField l = t.decodeNum (slot t.decodeLen t.decodePos bitField l) := by
  obtain ⟨six, nine⟩ := canonical.quickBits
  have le := first.le
  have inside := canonical.slot_lt first word
  have symbol : t.symbolForBits bitField l = t.decodeNum (slot t.decodeLen t.decodePos bitField l) := by
    have listed : slot t.decodeLen t.decodePos bitField l ≤ maxNumSymbols - 1 := by
      rw [canonical.numSymbols] at inside
      omega
    show t.decodeNum (min (if slot t.decodeLen t.decodePos bitField l ≥ t.numSymbols then 0
      else slot t.decodeLen t.decodePos _ l) _) = _
    rw [if_neg (Nat.not_le.mpr inside), min_eq_left listed]
  refine ⟨?_, symbol⟩
  have bound : t.quickThreshold = t.decodeLen t.quickBits := by rw [quickThreshold, mask_eq (by omega)]
  unfold lookup
  rw [bound]
  by_cases short : l ≤ t.quickBits
  · have quick : bitField < t.decodeLen t.quickBits := by
      have mono := threshold_mono lengths 16 short (by omega)
      rw [← canonical.thresholds l le, ← canonical.thresholds t.quickBits (by omega)] at mono
      exact first.above.trans_le mono
    have code : bitField >>> (16 - t.quickBits) < 2 ^ t.quickBits := by
      rw [Nat.shiftRight_eq_div_pow, Nat.div_lt_iff_lt_mul (Nat.two_pow_pos _), ← Nat.pow_add,
        Nat.add_sub_cancel' (by omega)]
      exact word
    have index : t.quickIndex bitField = bitField >>> (16 - t.quickBits) := by
      have wide : 2 ^ t.quickBits ≤ 2 ^ 9 := Nat.pow_le_pow_right (by omega) nine
      exact Nat.and_two_pow_sub_one_of_lt_two_pow (n := 9) (code.trans_le wide)
    obtain ⟨first', same⟩ := canonical.quick_prefix first short
    have word' : (bitField >>> (16 - t.quickBits)) <<< (16 - t.quickBits) < 2 ^ 16 := by
      rw [Nat.shiftRight_eq_div_pow, Nat.shiftLeft_eq]
      exact (Nat.div_mul_le_self _ _).trans_lt word
    have slots : slot t.decodeLen t.decodePos ((bitField >>> (16 - t.quickBits)) <<< (16 - t.quickBits)) l =
        slot t.decodeLen t.decodePos bitField l := by
      rw [canonical.slot_eq first' word', canonical.slot_eq first word, same]
    simp only [if_pos quick, index, canonical.quickLen _ code l first',
      canonical.quickNum _ code l first' (slots ▸ inside), slots, short, decide_true]
  · have long := Nat.not_le.mp short
    have slow : ¬ bitField < t.decodeLen t.quickBits := Nat.not_lt.mpr (first.below _ (by omega) long)
    have bits : t.slowPathBits bitField = l := by
      have fifteen : t.quickBits + 1 + (maxCodeLength - (t.quickBits + 1)) = maxCodeLength := by
        unfold maxCodeLength
        omega
      have found := find_first (p := fun i => decide (bitField < t.decodeLen i)) _
        (maxCodeLength - (t.quickBits + 1)) (show t.quickBits + 1 ≤ l from long) (by rw [fifteen]; exact le)
        (fun i above below => decide_eq_false (Nat.not_lt.mpr (first.below i (by omega) below)))
        (fun _ => decide_eq_true first.above)
      rwa [fifteen] at found
    simp only [if_neg slow, bits, symbol, short, decide_false]

end Lookup

section Codes

theorem mask_even {word : Nat} (bound : word < 2 ^ 16) : word &&& 0xfffe = 2 * (word / 2) := by
  have high : (word &&& 0xfffe) / 2 = word / 2 := by
    rw [Nat.and_div_two]
    exact Nat.and_two_pow_sub_one_of_lt_two_pow (n := 15) (by omega)
  have low : (word &&& 0xfffe) % 2 = 0 := by
    rw [Nat.and_mod_two_pow (n := 1)]
    simp
  omega

variable {sym : Nat}

theorem coded_inside (coded : lengths.getD sym 0 ≠ 0) : sym < lengths.length := by
  by_contra outside
  exact coded (List.getD_eq_default _ _ (Nat.not_lt.mp outside))

/-- A 16-bit peek that starts with a symbol's code finds the symbol, whatever follows it. -/
theorem Canonical.lookup_code (canonical : Canonical lengths t) (small : lengths.length ≤ maxNumSymbols)
    (bounded : ∀ l ∈ lengths, l ≤ 15) (coded : lengths.getD sym 0 ≠ 0) {bits : Nat → Bool} {pos : Nat}
    (here : field bits pos (lengths.getD sym 0) = code lengths sym) :
    (t.lookup (field bits pos 16 &&& 0xfffe)).1 = lengths.getD sym 0 ∧
      (t.lookup (field bits pos 16 &&& 0xfffe)).2.1 = sym := by
  have inside := coded_inside coded
  have le := length_le bounded sym
  have word := field_lt bits pos 16
  have split := field_add bits pos (lengths.getD sym 0) (16 - lengths.getD sym 0)
  rw [Nat.add_sub_cancel' (by omega), here] at split
  have leading : (field bits pos 16 &&& 0xfffe) / 2 ^ (16 - lengths.getD sym 0) = code lengths sym := by
    have half : 2 ^ (16 - lengths.getD sym 0) = 2 * 2 ^ (15 - lengths.getD sym 0) := by
      rw [← Nat.pow_succ']
      congr 1
      omega
    rw [mask_even word, half, Nat.mul_div_mul_left _ _ (by omega), Nat.div_div_eq_div_mul, ← half, split, Nat.add_comm,
      Nat.add_mul_div_right _ _ (Nat.two_pow_pos _), Nat.div_eq_of_lt (field_lt _ _ _), Nat.zero_add]
  have masked : field bits pos 16 &&& 0xfffe < 2 ^ 16 := Nat.and_le_left.trans_lt word
  have first : FirstAbove t.decodeLen (field bits pos 16 &&& 0xfffe) (lengths.getD sym 0) := by
    refine canonical.firstAbove (Nat.pos_of_ne_zero coded) le ?_ ?_
    · rw [leading]
      exact Nat.le_add_right _ _
    · rw [leading]
      exact code_lt_limit inside coded
  obtain ⟨found, -⟩ := canonical.lookup_eq small first masked
  rw [found]
  refine ⟨rfl, ?_⟩
  rw [canonical.slot_eq first masked, leading, code, Nat.add_sub_cancel_left]
  exact canonical.symbol sym inside coded

end Codes

section Sequences
variable {σ ε α : Type}

/-- Runs a decoder `n` times. -/
def times : Nat → EStateM ε σ α → EStateM ε σ (List α)
  | 0, _ => pure []
  | n + 1, step => do
    let value ← step
    let rest ← times n step
    pure (value :: rest)

/-- A decoder that reads any one code it stands at reads any sequence of them. -/
theorem times_decode (step : EStateM ε σ α) (symbol : α → Nat) (At : σ → Nat → Prop) (bits : Nat → Bool) (last : Nat)
    (one : ∀ s pos sym, At s pos → lengths.getD sym 0 ≠ 0 → Carries bits pos (codeword lengths sym) →
      pos + lengths.getD sym 0 ≤ last → ∃ value s', step s = .ok value s' ∧ symbol value = sym ∧
        At s' (pos + lengths.getD sym 0))
    (symbols : List Nat) (coded : ∀ sym ∈ symbols, lengths.getD sym 0 ≠ 0) {s : σ} {pos : Nat} (at_ : At s pos)
    (carries : Carries bits pos (encode lengths symbols)) (fits : pos + (encode lengths symbols).length ≤ last) :
    ∃ values s', times symbols.length step s = .ok values s' ∧ values.map symbol = symbols ∧
      At s' (pos + (encode lengths symbols).length) := by
  induction symbols generalizing s pos with
  | nil => exact ⟨[], s, rfl, rfl, at_⟩
  | cons sym rest ih =>
    have split : encode lengths (sym :: rest) = codeword lengths sym ++ encode lengths rest := List.flatMap_cons ..
    rw [split] at carries fits ⊢
    rw [List.length_append, codeword_length] at fits ⊢
    obtain ⟨first, later⟩ := carries.append
    rw [codeword_length] at later
    obtain ⟨value, middle, ran, here, between⟩ := one s pos sym at_ (coded sym List.mem_cons_self) first (by omega)
    obtain ⟨values, final, rest_, all, end_⟩ := ih (fun other member => coded other (List.mem_cons_of_mem sym member))
      between later (by omega)
    refine ⟨value :: values, final, ?_, by rw [List.map_cons, here, all], by rwa [← Nat.add_assoc]⟩
    simp only [times, List.length_cons, bind, EStateM.bind, ran, rest_, pure, EStateM.pure]

variable (small : lengths.length ≤ maxNumSymbols) (bounded : ∀ l ∈ lengths, l ≤ 15) (kraft : Kraft 15 lengths)
include small bounded kraft

/-- One code through a reader: the peek is padded with zeros near the end of the input, and the
code itself lies inside it. -/
theorem Canonical.decode_code [BitRead σ] [LawfulBitRead σ] (canonical : Canonical lengths t) {r : σ} {c : Cursor}
    {sym : Nat} (reads : LawfulBitRead.Reads r c) (coded : lengths.getD sym 0 ≠ 0)
    (carries : Carries (bit c.data) c.pos (codeword lengths sym)) (fits : lengths.getD sym 0 ≤ c.remaining) :
    ∃ r', decode t r = .ok sym r' ∧ LawfulBitRead.Reads r' (c.advance (lengths.getD sym 0) fits) := by
  have here := carries.field_eq (code_lt bounded kraft (coded_inside coded) coded)
  obtain ⟨bits, symbol⟩ := canonical.lookup_code small bounded coded here
  have le := length_le bounded sym
  have some : ¬ c.remaining = 0 := by omega
  have peeked := LawfulBitRead.peek16LeftAligned r c reads
  have ideal : (peek16LeftAligned : Reading Cursor Nat) c = .ok (field (bit c.data) c.pos 16 &&& 0xfffe) c := by
    simp only [peek16LeftAligned, Functor.map, EStateM.map, Cursor.peek, if_neg some]
  rw [ideal] at peeked
  generalize look : (peek16LeftAligned : Reading σ Nat) r = peek at peeked
  cases peeked with
  | @ok _ middle _ still =>
    have consumed := LawfulBitRead.consumeBits (show lengths.getD sym 0 ≤ 32 by omega) middle c still
    have moved : (consumeBits _ : Reading Cursor Unit) c =
        .ok () _ := Cursor.drop_of_le fits
    rw [moved] at consumed
    generalize eat : (consumeBits _ : Reading σ Unit) middle = eaten at consumed
    cases consumed with
    | @ok _ final _ after =>
      refine ⟨final, ?_, after⟩
      simp only [decode, bind, EStateM.bind, look, bits, eat, symbol, pure, EStateM.pure]

theorem Canonical.decodeCursor_code (canonical : Canonical lengths t) {data : List UInt8} {endBit : Nat}
    {cursor : BitCursor} {sym : Nat} (good : BitCursor.Good data endBit cursor) (coded : lengths.getD sym 0 ≠ 0)
    (carries : Carries (bit data) cursor.pos (codeword lengths sym)) (fits : cursor.pos + lengths.getD sym 0 ≤ endBit) :
    ∃ quick after, decodeCursor t data endBit cursor = .ok (sym, quick) after ∧
      after.pos = cursor.pos + lengths.getD sym 0 ∧ BitCursor.Good data endBit after := by
  have here := carries.field_eq (code_lt bounded kraft (coded_inside coded) coded)
  obtain ⟨bits, symbol⟩ := canonical.lookup_code small bounded coded here
  have peek := good.peekU16 (by omega)
  obtain ⟨after, moved, place, still⟩ := good.advance _
  refine ⟨(t.lookup (field (bit data) cursor.pos 16 &&& 0xfffe)).2.2, after, ?_, place, still⟩
  simp only [decodeCursor, peek, bits, moved]
  rw [← symbol]

end Sequences

/-- The block reader's decoder is the cursor's. -/
theorem decodeBlockReader_of_ok {r : BlockReader} {answer : Nat × Bool} {after : BitCursor}
    (ran : decodeCursor t r.data r.endBit r.cursor = .ok answer after) :
    decodeBlockReader t r = .ok answer { r with cursor := after } := by
  unfold decodeCursor at ran
  unfold decodeBlockReader BlockReader.peekU16 BlockReader.advance
  cases peek : r.cursor.peekU16 r.data with
  | error e => simp [peek] at ran
  | ok word =>
    simp only [peek] at ran ⊢
    cases moved : r.cursor.advance r.data r.endBit (t.lookup (word &&& 0xfffe)).1 with
    | error e => simp [moved] at ran
    | ok cursor =>
      simp_all

/-- The quick table gives the first length whose threshold is above the field and the symbol that
the threshold arithmetic finds there. -/
theorem Canonical.quick_agrees (canonical : Canonical lengths t) (small : lengths.length ≤ maxNumSymbols)
    (word : bitField < 2 ^ 16) (quick : bitField < t.quickThreshold) :
    FirstAbove t.decodeLen bitField (t.quickLen (t.quickIndex bitField)) ∧
      t.quickNum (t.quickIndex bitField) = t.symbolForBits bitField (t.quickLen (t.quickIndex bitField)) := by
  obtain ⟨six, nine⟩ := canonical.quickBits
  have bound : t.quickThreshold = t.decodeLen t.quickBits := by rw [quickThreshold, mask_eq (by omega)]
  -- The least length above the field; the quick threshold is one.
  have some : ∃ l, 0 < l ∧ bitField < t.decodeLen l := ⟨t.quickBits, by omega, bound ▸ quick⟩
  have least : Nat.find some ≤ t.quickBits := Nat.find_min' some ⟨by omega, bound ▸ quick⟩
  have first : FirstAbove t.decodeLen bitField (Nat.find some) := by
    refine ⟨(Nat.find_spec some).1, by omega, fun i positive below => ?_, (Nat.find_spec some).2⟩
    by_contra above
    exact Nat.find_min some below ⟨positive, Nat.not_le.mp above⟩
  obtain ⟨found, symbol⟩ := canonical.lookup_eq small first word
  simp only [lookup, if_pos quick, Prod.mk.injEq] at found
  obtain ⟨length, number, -⟩ := found
  rw [length, number, symbol]
  exact ⟨first, rfl⟩

/-- Canonical decoding inverts encoding in every decoder. A sequence of codes that a byte string
carries at `pos` is read back symbol by symbol, and the reader ends behind the last code, also when
the string ends there. -/
theorem decoders_invert_encode {lengths : List Nat} (small : lengths.length ≤ maxNumSymbols)
    (bounded : ∀ l ∈ lengths, l ≤ 15) (kraft : Kraft 15 lengths) (symbols : List Nat)
    (coded : ∀ sym ∈ symbols, lengths.getD sym 0 ≠ 0) :
    ∃ t, build lengths = .ok t ∧
      (∀ data pos, Carries (bit data) pos (encode lengths symbols) →
        pos + (encode lengths symbols).length ≤ 8 * data.length →
        (∀ (σ : Type) [BitRead σ] [LawfulBitRead σ] (r : σ) (c : Cursor), LawfulBitRead.Reads r c → c.data = data →
          c.pos = pos → ∃ r', times symbols.length (decode t) r = .ok symbols r' ∧
            BitRead.position r' = pos + (encode lengths symbols).length) ∧
        (∀ (r : BitReader) (c : Cursor), BitReader.Reads r c → c.data = data → c.pos = pos →
          ∃ r', times symbols.length (decodeBitreader t) r = .ok symbols r' ∧
            r'.position = pos + (encode lengths symbols).length)) ∧
      (∀ data pos endBit r, BlockReader.new data pos endBit = .ok (.ok r) →
        Carries (bit data) pos (encode lengths symbols) → pos + (encode lengths symbols).length ≤ endBit →
        (∃ answers r', times symbols.length (decodeBlockReader t) r = .ok answers r' ∧
          answers.map Prod.fst = symbols ∧ r'.position = pos + (encode lengths symbols).length) ∧
        ∃ answers cursor, times symbols.length (decodeCursor t data endBit) r.cursor = .ok answers cursor ∧
          answers.map Prod.fst = symbols ∧ cursor.pos = pos + (encode lengths symbols).length) ∧
      ∀ bitField < 2 ^ 16, bitField < t.quickThreshold →
        FirstAbove t.decodeLen bitField (t.quickLen (t.quickIndex bitField)) ∧
          t.quickNum (t.quickIndex bitField) = t.symbolForBits bitField (t.quickLen (t.quickIndex bitField)) := by
  obtain ⟨t, built, canonical⟩ := build_canonical small bounded
  have lawful (data : List UInt8) (σ : Type) [BitRead σ] [LawfulBitRead σ] (r : σ) (c : Cursor)
      (carries : Carries (bit data) c.pos (encode lengths symbols))
      (fits : c.pos + (encode lengths symbols).length ≤ 8 * data.length) (reads : LawfulBitRead.Reads r c)
      (same : c.data = data) : ∃ r', times symbols.length (decode t) r = .ok symbols r' ∧
        position r' = c.pos + (encode lengths symbols).length := by
    obtain ⟨values, r', ran, all, ⟨c', after, -, place⟩⟩ := times_decode (decode t) id
      (fun r pos => ∃ c : Cursor, LawfulBitRead.Reads r c ∧ c.data = data ∧ c.pos = pos) (bit data)
      (8 * data.length) (by
        rintro r pos sym ⟨c, reads, rfl, rfl⟩ coded carries fits
        have room : lengths.getD sym 0 ≤ c.remaining := by
          unfold Cursor.remaining
          omega
        obtain ⟨r', ran, after⟩ := canonical.decode_code small bounded kraft reads coded carries room
        exact ⟨sym, r', ran, rfl, _, after, rfl, rfl⟩)
      symbols coded ⟨c, reads, same, rfl⟩ carries fits
    rw [List.map_id] at all
    exact ⟨r', all ▸ ran, (LawfulBitRead.position_eq after).trans place⟩
  refine ⟨t, built, fun data pos carries fits => ⟨fun σ _ _ r c reads same place => ?_, fun r c reads same place => ?_⟩,
    fun data pos endBit r new carries fits => ?_, fun bitField word quick => canonical.quick_agrees small word quick⟩
  · grind
  · subst place
    -- The specialisation tops the accumulator up and peeks as the trait's peek does.
    exact lawful data BitReader r c carries fits reads same
  · obtain ⟨rfl, rfl, rfl, good⟩ := BlockReader.new_good new
    constructor
    · obtain ⟨answers, r', ran, all, ⟨-, -, place, -⟩⟩ := times_decode (decodeBlockReader t) Prod.fst
        (fun r' pos => r'.data = r.data ∧ r'.endBit = r.endBit ∧ r'.position = pos ∧
          BitCursor.Good r.data r.endBit r'.cursor) (bit r.data) r.endBit (by
          rintro ⟨data, endBit, cursor⟩ pos sym ⟨rfl, rfl, rfl, good⟩ coded carries fits
          obtain ⟨quick, after, ran, place, still⟩ :=
            canonical.decodeCursor_code small bounded kraft good coded carries fits
          exact ⟨_, _, decodeBlockReader_of_ok ran, rfl, rfl, rfl, place, still⟩)
        symbols coded ⟨rfl, rfl, rfl, good⟩ carries fits
      exact ⟨answers, r', ran, all, place⟩
    · obtain ⟨answers, cursor, ran, all, place, -⟩ := times_decode _ Prod.fst
        (fun cursor pos => cursor.pos = pos ∧ BitCursor.Good r.data r.endBit cursor) (bit r.data) r.endBit (by
          rintro cursor pos sym ⟨rfl, good⟩ coded carries fits
          obtain ⟨quick, after, ran, place, still⟩ :=
            canonical.decodeCursor_code small bounded kraft good coded carries fits
          exact ⟨_, _, ran, rfl, place, still⟩)
        symbols coded ⟨rfl, good⟩ carries fits
      exact ⟨answers, cursor, ran, all, place⟩

/-- The codes `0`, `10` and `11`, written in the five leading bits of a byte. -/
theorem decoders_invert_encode_three :
    ∃ t, build [1, 2, 2] = .ok t ∧
      (∃ r, times 3 (decode t) (BitReader.new [0x58]) = .ok [0, 1, 2] r ∧ r.position = 5) ∧
      (∃ r, times 3 (decodeBitreader t) (BitReader.new [0x58]) = .ok [0, 1, 2] r ∧ r.position = 5) ∧
      ∃ r answers r', BlockReader.new (0x58 :: List.replicate 32 0) 0 5 = .ok (.ok r) ∧
        times 3 (decodeBlockReader t) r = .ok answers r' ∧ answers.map Prod.fst = [0, 1, 2] ∧ r'.position = 5 := by
  obtain ⟨t, built, streams, blocks, -⟩ := decoders_invert_encode (show [1, 2, 2].length ≤ maxNumSymbols by decide)
    (by decide) (by decide) [0, 1, 2] (by decide)
  have carried : Carries (bit [0x58]) 0 (encode [1, 2, 2] [0, 1, 2]) := by
    unfold Carries
    decide
  obtain ⟨every, slices⟩ := streams [0x58] 0 carried (by decide)
  have new : ∃ r, BlockReader.new (0x58 :: List.replicate 32 0) 0 5 = .ok (.ok r) := ⟨_, rfl⟩
  obtain ⟨r, new⟩ := new
  have carried : Carries (bit (0x58 :: List.replicate 32 0)) 0 (encode [1, 2, 2] [0, 1, 2]) := by
    unfold Carries
    decide
  obtain ⟨⟨answers, r', ran, all, place⟩, -⟩ := blocks _ 0 5 r new carried (by decide)
  exact ⟨t, built, every BitReader _ _ (BitReader.new_reads _) rfl rfl,
    slices _ _ (BitReader.new_reads _) rfl rfl, r, answers, r', new, ran, all, place⟩

end Rarpar.Unrar.HuffmanTable

import Mathlib.Data.Nat.Bitwise
import Mathlib.Tactic.Ring
import Mathlib.Tactic.IntervalCases

namespace Rarpar.BitString
open List

/-- Bit `i` of a byte string, the most significant bit of each byte first, and zero past its end. -/
def bit (data : List UInt8) (i : Nat) : Bool :=
  (data.getD (i / 8) 0).toBitVec.getMsbD (i % 8)

/-- The number that `count` bits from `start` on write, most significant first. -/
def field (bits : Nat → Bool) (start : Nat) : Nat → Nat
  | 0 => 0
  | count + 1 => 2 * field bits start count + (bits (start + count)).toNat

/-- The number whose base-256 digits are the bytes, most significant first. -/
def fromBeBytes (bytes : List UInt8) : Nat :=
  bytes.foldl (fun value byte => 256 * value + byte.toNat) 0

section Field
variable (bits : Nat → Bool)

theorem field_lt (start count : Nat) : field bits start count < 2 ^ count := by
  induction count with
  | zero => exact Nat.one_pos
  | succ count ih =>
    have last := Bool.toNat_le (bits (start + count))
    simp only [field, Nat.pow_succ]
    omega

variable {bits} in
theorem field_congr {other : Nat → Bool} {start shift count : Nat}
    (same : ∀ i < count, bits (start + i) = other (shift + i)) :
    field bits start count = field other shift count := by
  induction count with
  | zero => rfl
  | succ count ih =>
    simp only [field, ih fun i below => same i (Nat.lt_succ_of_lt below), same count (Nat.lt_succ_self count)]

/-- A field read in two parts. -/
theorem field_add (start high low : Nat) :
    field bits start (high + low) = field bits start high * 2 ^ low + field bits (start + high) low := by
  induction low with
  | zero => simp [field]
  | succ low ih =>
    have last : field bits start (high + (low + 1)) =
        2 * field bits start (high + low) + (bits (start + (high + low))).toNat := rfl
    rw [last, ih, field, Nat.pow_succ, Nat.add_assoc start]
    ring

/-- Past the last set bit a field only gains zeros. -/
theorem field_pad (start : Nat) {count : Nat} (width : Nat) (zeros : ∀ i, count ≤ i → bits (start + i) = false) :
    field bits start (count + width) = field bits start count <<< width := by
  induction width with
  | zero => rfl
  | succ width ih =>
    have last : field bits start (count + (width + 1)) =
        2 * field bits start (count + width) + (bits (start + (count + width))).toNat := rfl
    rw [last, ih, zeros _ (Nat.le_add_right _ _), Nat.shiftLeft_succ, Bool.toNat_false, Nat.add_zero]

theorem testBit_field (start count i : Nat) :
    (field bits start count).testBit i = (decide (i < count) && bits (start + (count - 1 - i))) := by
  induction count generalizing i with
  | zero => simp [field]
  | succ count ih =>
    cases i with
    | zero =>
      cases h : bits (start + count) <;> simp [field, h, Nat.testBit_zero, Nat.add_mod]
    | succ i =>
      have half : field bits start (count + 1) / 2 = field bits start count := by
        have last := Bool.toNat_le (bits (start + count))
        simp only [field]
        omega
      have index : count + 1 - 1 - (i + 1) = count - 1 - i := by omega
      rw [Nat.testBit_succ, half, ih, index]
      simp

theorem getMsbD_ofNat_field {width : Nat} (start i : Nat) (inside : i < width) :
    (BitVec.ofNat width (field bits start width)).getMsbD i = bits (start + i) := by
  have index : width - 1 - (width - 1 - i) = i := by omega
  have low : width - 1 - i < width := by omega
  simp only [BitVec.getMsbD, BitVec.getLsbD_ofNat, testBit_field, inside, low, decide_true, Bool.true_and, index]

variable {bits} in
/-- The leading bits of a word write a field. -/
theorem toNat_ushiftRight_eq_field {width : Nat} (word : BitVec width) {count start : Nat} (room : count ≤ width)
    (same : ∀ i < count, word.getMsbD i = bits (start + i)) :
    (word >>> (width - count)).toNat = field bits start count := by
  apply Nat.eq_of_testBit_eq
  intro i
  simp only [BitVec.testBit_toNat, BitVec.getLsbD_ushiftRight, testBit_field]
  by_cases inside : i < count
  · have index : width - 1 - (count - 1 - i) = width - count + i := by omega
    have below : count - 1 - i < width := by omega
    rw [← same _ (by omega), BitVec.getMsbD]
    simp [inside, below, index]
  · have outside : width ≤ width - count + i := by omega
    simp [inside, BitVec.getLsbD_of_ge _ _ outside]

end Field

section Bytes
variable (data : List UInt8)

theorem field_byte (index : Nat) : field (bit data) (8 * index) 8 = (data.getD index 0).toNat := by
  have same : ∀ i < 8, (data.getD index 0).toBitVec.getMsbD i = bit data (8 * index + i) := by
    intro i inside
    have quotient : (8 * index + i) / 8 = index := by omega
    have remainder : (8 * index + i) % 8 = i := by omega
    simp only [bit, quotient, remainder]
  rw [← toNat_ushiftRight_eq_field _ le_rfl same]
  simp

variable {data} in
theorem bit_of_length_le {i : Nat} (outside : 8 * data.length ≤ i) : bit data i = false := by
  have absent : data.length ≤ i / 8 := by omega
  simp [bit, getD_eq_getElem?_getD, getElem?_eq_none absent]

theorem bit_drop (skipped i : Nat) : bit (data.drop skipped) i = bit data (8 * skipped + i) := by
  have quotient : (8 * skipped + i) / 8 = skipped + i / 8 := by omega
  have remainder : (8 * skipped + i) % 8 = i % 8 := by omega
  simp only [bit, quotient, remainder, getD_eq_getElem?_getD, getElem?_drop]

variable {data} in
theorem bit_append_left (more : List UInt8) {i : Nat} (inside : i < 8 * data.length) :
    bit (data ++ more) i = bit data i := by
  have first : i / 8 < data.length := by omega
  simp only [bit, getD_eq_getElem?_getD, getElem?_append_left first]

theorem foldl_bytes (bytes : List UInt8) (value : Nat) :
    bytes.foldl (fun value byte => 256 * value + byte.toNat) value =
      value * 2 ^ (8 * bytes.length) + field (bit bytes) 0 (8 * bytes.length) := by
  induction bytes generalizing value with
  | nil => simp [field]
  | cons byte rest ih =>
    have first : field (bit (byte :: rest)) 0 8 = byte.toNat := field_byte (byte :: rest) 0
    have later : field (bit (byte :: rest)) (0 + 8) (8 * rest.length) = field (bit rest) 0 (8 * rest.length) := by
      refine field_congr fun i _ => ?_
      have tail := bit_drop (byte :: rest) 1 (0 + i)
      rw [drop_one, tail_cons] at tail
      rw [tail]
      congr 1
      omega
    have split : 8 * (byte :: rest).length = 8 + 8 * rest.length := by
      simp only [length_cons]
      omega
    rw [foldl_cons, ih, split, field_add, first, later, Nat.pow_add]
    ring

variable {data} in
/-- Bytes that lie inside the string, loaded big-endian, are the field at their first bit. -/
theorem fromBeBytes_eq_field {index width : Nat} (inside : index + width ≤ data.length) :
    fromBeBytes ((data.drop index).take width) = field (bit data) (8 * index) (8 * width) := by
  have length : ((data.drop index).take width).length = width := by
    rw [length_take, length_drop]
    omega
  rw [fromBeBytes, foldl_bytes, length, Nat.zero_mul, Nat.zero_add]
  refine field_congr fun i below => ?_
  have kept : ((data.drop index).take width).getD (i / 8) 0 = (data.drop index).getD (i / 8) 0 := by
    have taken : i / 8 < width := by omega
    simp [getD_eq_getElem?_getD, taken]
  rw [Nat.zero_add, ← bit_drop]
  simp only [bit, kept]

end Bytes

/-- A bulk load credits the whole bytes that fit below the valid bits. -/
theorem whole_bytes {held : Nat} (le : held ≤ 56) : held ||| 56 = held + 8 * ((63 - held) >>> 3) := by
  interval_cases held <;> rfl

/-- An accumulator that holds the bits of a stream from `pos` on, left aligned. Only the first
`valid` of them are vouched for; below them a set bit is still a set bit of the stream. -/
structure Window (acc : BitVec 64) (valid : Nat) (bits : Nat → Bool) (pos : Nat) : Prop where
  valid_le : valid ≤ 64
  exact : ∀ i < valid, acc.getMsbD i = bits (pos + i)
  harmless : ∀ i, acc.getMsbD i = true → bits (pos + i) = true

namespace Window
variable {acc : BitVec 64} {valid pos : Nat} {bits : Nat → Bool}

theorem empty : Window 0 0 bits pos where
  valid_le := Nat.zero_le _
  exact i below := absurd below (Nat.not_lt_zero i)
  harmless i set := by simp at set

section
variable (window : Window acc valid bits pos)
include window

theorem weaken {fewer : Nat} (le : fewer ≤ valid) :
    Window acc fewer bits pos where
  valid_le := le.trans window.valid_le
  exact i below := window.exact i (below.trans_le le)
  harmless := window.harmless

/-- Reading off the leading bits. -/
theorem field_eq {count : Nat} (le : count ≤ valid) : (acc >>> (64 - count)).toNat = field bits pos count :=
  toNat_ushiftRight_eq_field acc (le.trans window.valid_le) fun i below => window.exact i (below.trans_le le)

/-- Consuming bits is a shift. -/
theorem shift {count : Nat} (le : count ≤ valid) :
    Window (acc <<< count) (valid - count) bits (pos + count) where
  valid_le := (Nat.sub_le _ _).trans window.valid_le
  exact i below := by
    have held := window.exact (i + count) (by omega)
    rw [BitVec.getMsbD_shiftLeft, held]
    congr 1
    omega
  harmless i set := by
    rw [BitVec.getMsbD_shiftLeft] at set
    have held := window.harmless (i + count) set
    rwa [show pos + count + i = pos + (i + count) by omega]

/-- A load of the stream's next bits below the valid ones fills the accumulator: whatever was left
below them is a subset of the bits the load brings. -/
theorem load {chunk : BitVec 64}
    (next : ∀ i < 64, chunk.getMsbD i = bits (pos + valid + i)) : Window (acc ||| chunk >>> valid) 64 bits pos where
  valid_le := le_rfl
  exact i below := by
    rw [BitVec.getMsbD_or, BitVec.getMsbD_ushiftRight]
    by_cases held : i < valid
    · simp [held, window.exact i held]
    · have shifted : pos + valid + (i - valid) = pos + i := by omega
      have loaded := next (i - valid) (by omega)
      rw [shifted] at loaded
      have subset := window.harmless i
      cases bitHere : bits (pos + i) <;> simp_all
  harmless i set := by
    rw [BitVec.getMsbD_or, BitVec.getMsbD_ushiftRight, Bool.or_eq_true] at set
    rcases set with old | new
    · exact window.harmless i old
    · by_cases held : i < valid
      · simp [held] at new
      · by_cases inside : i < 64
        · have shifted : pos + valid + (i - valid) = pos + i := by omega
          have loaded := next (i - valid) (by omega)
          rw [shifted] at loaded
          simp_all
        · simp [inside] at new

/-- The same for one byte. -/
theorem loadByte (room : valid ≤ 56) {byte : UInt8}
    (next : ∀ i < 8, byte.toBitVec.getMsbD i = bits (pos + valid + i)) :
    Window (acc ||| (byte.toBitVec.setWidth 64 <<< (56 - valid))) (valid + 8) bits pos := by
  have placed (i : Nat) : (byte.toBitVec.setWidth 64 <<< (56 - valid)).getMsbD i =
      (decide (valid ≤ i ∧ i < valid + 8) && bits (pos + i)) := by
    by_cases inside : valid ≤ i ∧ i < valid + 8
    · have loaded := next (i - valid) (by omega)
      rw [show pos + valid + (i - valid) = pos + i by omega] at loaded
      rw [← loaded, BitVec.getMsbD_shiftLeft, BitVec.getMsbD_setWidth]
      have high : 64 - 8 ≤ i + (56 - valid) := by omega
      have index : i + (56 - valid) + 8 - 64 = i - valid := by omega
      simp only [inside, high, index, and_self, decide_true, Bool.true_and]
    · rw [BitVec.getMsbD_shiftLeft, BitVec.getMsbD_setWidth]
      simp only [inside, decide_false, Bool.false_and]
      by_cases low : i < valid
      · have short : ¬ (64 - 8 ≤ i + (56 - valid)) := by omega
        simp only [short, decide_false, Bool.false_and]
      · have beyond : ¬ i + (56 - valid) + 8 - 64 < 8 := by omega
        simp only [BitVec.getMsbD, beyond, decide_false, Bool.false_and, Bool.and_false]
  refine ⟨by omega, fun i below => ?_, fun i set => ?_⟩
  · rw [BitVec.getMsbD_or, placed]
    by_cases held : i < valid
    · simp [window.exact i held, show ¬ (valid ≤ i ∧ i < valid + 8) by omega]
    · have subset := window.harmless i
      cases bitHere : bits (pos + i) <;> simp_all
  · rw [BitVec.getMsbD_or, placed, Bool.or_eq_true, Bool.and_eq_true] at set
    exact set.elim (window.harmless i) And.right

end

end Window

end Rarpar.BitString

import Mathlib.Data.FinEnum
import Mathlib.Tactic

namespace Rarpar
open Function BitVec

/-- A `w`-bit symbol of the binary field cut out by the polynomial `g`,
whose leading term is dropped by truncation to `w` bits. -/
@[ext]
structure GfSymbol (w g : Nat) where
  bits : BitVec w
deriving DecidableEq, Repr

namespace GfSymbol
variable {w g : Nat} (i : Nat) (a b : GfSymbol w g)

/-- The symbol whose binary expansion is `value`, as an unsigned cast. -/
def ofNat (value : Nat) : GfSymbol w g := ⟨BitVec.ofNat w value⟩

def toNat (a : GfSymbol w g) : Nat := a.bits.toNat

instance : Zero (GfSymbol w g) := ⟨⟨0⟩⟩
instance : One (GfSymbol w g) := ⟨⟨1⟩⟩
instance : Add (GfSymbol w g) := ⟨fun a b => ⟨a.bits ^^^ b.bits⟩⟩
instance : Neg (GfSymbol w g) := ⟨id⟩

@[simp] theorem zero_bits : (0 : GfSymbol w g).bits = 0 := rfl
@[simp] theorem one_bits : (1 : GfSymbol w g).bits = 1 := rfl
@[simp] theorem add_bits : (a + b).bits = a.bits ^^^ b.bits := rfl
@[simp] theorem neg_eq : -a = a := rfl

/-- Exclusive-or makes the symbols an additive group in which every element
is its own negative. -/
instance : AddCommGroup (GfSymbol w g) where
  add_assoc a b c := by ext1; exact BitVec.xor_assoc ..
  zero_add a := by ext1; exact BitVec.zero_xor
  add_zero a := by ext1; exact BitVec.xor_zero
  add_comm a b := by ext1; exact BitVec.xor_comm ..
  neg_add_cancel a := by ext1; exact BitVec.xor_self
  nsmul := nsmulRec
  zsmul := zsmulRec

def equivBits : GfSymbol w g ≃ BitVec w where
  toFun := bits
  invFun := mk
  left_inv _ := rfl
  right_inv _ := rfl

instance : Fintype (GfSymbol w g) := Fintype.ofEquiv _ equivBits.symm

theorem card : Fintype.card (GfSymbol w g) = 2 ^ w := by
  rw [Fintype.card_congr (equivBits.trans ⟨toFin, ofFin, fun _ => rfl, fun _ => rfl⟩),
    Fintype.card_fin]

theorem add_self : a + a = 0 := by
  ext1
  exact xor_self

theorem ofNat_xor (i j : Nat) : (ofNat (i ^^^ j) : GfSymbol w g) = ofNat i + ofNat j := by
  ext1
  exact BitVec.ofNat_xor ..

@[simp] theorem ofNat_toNat : ofNat a.toNat = a := by
  ext1
  simp [ofNat, toNat]

theorem toNat_ofNat {i : Nat} (bound : i < 2 ^ w) : (ofNat i : GfSymbol w g).toNat = i := by
  simp [toNat, ofNat, Nat.mod_eq_of_lt bound]

theorem toNat_lt : a.toNat < 2 ^ w := a.bits.isLt

theorem toNat_injective : Function.Injective (toNat : GfSymbol w g → Nat) :=
  Function.LeftInverse.injective ofNat_toNat

theorem ofNat_inj {i j : Nat} (hi : i < 2 ^ w) (hj : j < 2 ^ w) :
    (ofNat i : GfSymbol w g) = ofNat j ↔ i = j := by
  constructor
  · intro same
    rw [← toNat_ofNat (g := g) hi, same, toNat_ofNat hj]
  · rintro rfl
    rfl

/-- One turn of the register: multiplication by `x`, shifting out the top bit
and folding the polynomial back in when it was set. -/
def turn (a : GfSymbol w g) : GfSymbol w g :=
  ⟨(a.bits <<< 1) ^^^ (if a.bits.msb then BitVec.ofNat w g else 0)⟩

theorem turn_add : turn (a + b) = turn a + turn b := by
  have fold (x y : Bool) : (if (x ^^ y) = true then BitVec.ofNat w g else 0) =
      (if x = true then BitVec.ofNat w g else 0) ^^^ (if y = true then BitVec.ofNat w g else 0) := by
    cases x <;> cases y <;> simp
  ext1
  simp only [turn, add_bits, BitVec.shiftLeft_xor_distrib, BitVec.msb_xor, fold]
  ac_rfl

@[simp] theorem turn_zero : turn (0 : GfSymbol w g) = 0 := by
  simpa using turn_add (0 : GfSymbol w g) 0

theorem iterate_turn_add : turn^[i] (a + b) = turn^[i] a + turn^[i] b := by
  induction i generalizing a b with
  | zero => rfl
  | succ i ih => simp only [iterate_succ_apply, turn_add, ih]

@[simp] theorem iterate_turn_zero : turn^[i] (0 : GfSymbol w g) = 0 :=
  iterate_fixed turn_zero i

/-- Shift-and-add over the low `n` bits of the right factor. -/
def mulBits : Nat → GfSymbol w g → BitVec w → GfSymbol w g
  | 0, _, _ => 0
  | n + 1, a, b => (if b.getLsbD 0 then a else 0) + mulBits n (turn a) (b >>> 1)

instance : Mul (GfSymbol w g) := ⟨fun a b => mulBits w a b.bits⟩

theorem mul_def : a * b = mulBits w a b.bits := rfl

theorem mulBits_turn (n : Nat) (a : GfSymbol w g) (b : BitVec w) :
    mulBits n (turn a) b = turn (mulBits n a b) := by
  induction n generalizing a b with
  | zero => exact turn_zero.symm
  | succ n ih =>
    simp only [mulBits, turn_add, ih]
    split <;> simp

theorem mulBits_zero (n : Nat) (b : BitVec w) : mulBits n (0 : GfSymbol w g) b = 0 := by
  induction n generalizing b with
  | zero => rfl
  | succ n ih => simp [mulBits, ih]

theorem zero_mul_sym : 0 * b = 0 := mulBits_zero w b.bits

theorem twoPow_shiftLeft (i j : Nat) : twoPow w i <<< j = twoPow w (i + j) := by
  rw [shiftLeft_eq_mul_twoPow, twoPow_mul_twoPow_eq]

theorem turn_twoPow {i : Nat} (bound : i + 1 < w) :
    turn (⟨twoPow w i⟩ : GfSymbol w g) = ⟨twoPow w (i + 1)⟩ := by
  have clear : (twoPow w i).msb = false := by
    rw [msb_twoPow]
    simp
    omega
  simp [turn, clear, twoPow_shiftLeft]

theorem shiftLeft_eq_low_xor (b : BitVec w) (i : Nat) :
    b <<< i = (if b.getLsbD 0 then twoPow w i else 0) ^^^ ((b >>> 1) <<< (i + 1)) := by
  have parts : b = (if b.getLsbD 0 then twoPow w 0 else 0) ^^^ ((b >>> 1) <<< 1) := by
    ext j hj
    cases j <;> cases low : b.getLsbD 0 <;> simp_all [Nat.add_comm 1, ← getLsbD_eq_getElem]
  conv_lhs => rw [parts, shiftLeft_xor_distrib, ← shiftLeft_add, Nat.add_comm 1]
  split <;> simp [twoPow_shiftLeft]

theorem mulBits_twoPow (n i : Nat) (total : i + n = w) (b : BitVec w) :
    (mulBits n (⟨twoPow w i⟩ : GfSymbol w g) b).bits = b <<< i := by
  induction n generalizing i b with
  | zero =>
    obtain rfl : i = w := by omega
    simp [mulBits]
  | succ n ih =>
    rw [mulBits, add_bits, shiftLeft_eq_low_xor]
    congr 1
    · split <;> rfl
    by_cases last : i + 1 < w
    · rw [turn_twoPow last, ih (i + 1) (by omega)]
    · obtain rfl : n = 0 := by omega
      obtain rfl : w = i + 1 := by omega
      simp [mulBits]

theorem one_mul_sym : 1 * b = b := by
  ext1
  have unit : (1 : GfSymbol w g) = ⟨twoPow w 0⟩ := by
    ext1
    simp [twoPow]
  rw [mul_def, unit, mulBits_twoPow w 0 (by omega), shiftLeft_zero]

theorem iterate_turn_mul : turn^[i] 1 * b = turn^[i] b := by
  induction i with
  | zero => exact one_mul_sym b
  | succ i ih =>
    rw [iterate_succ_apply', iterate_succ_apply', mul_def, mulBits_turn, ← mul_def, ih]

/-- The register state after `i` turns from one. -/
def power (i : Nat) : GfSymbol w g := turn^[i] 1

@[simp] theorem power_zero : (power 0 : GfSymbol w g) = 1 := rfl

theorem power_succ : (power (i + 1) : GfSymbol w g) = turn (power i) :=
  iterate_succ_apply' turn i 1

theorem power_mul : power i * b = turn^[i] b := iterate_turn_mul i b

theorem power_mul_power (i j : Nat) : (power i * power j : GfSymbol w g) = power (i + j) := by
  rw [power_mul, power, power, iterate_add_apply]

end GfSymbol
end Rarpar

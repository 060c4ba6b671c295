import Mathlib.Data.Nat.Bitwise
import Rarpar.Algebra.GfSymbolField

namespace Rarpar
open Nat

/-- The two tables while they are being filled, with the running power.
Entries that were never stored read as the zero the vectors start with. -/
structure LogTables where
  log : Nat → Nat
  antilog : Nat → Nat
  val : Nat

/-- The filling loop: entry `i` of the antilog table receives the running
power, whose log entry receives `i`, and the power is stepped. -/
def fillTables (step : Nat → Nat) : Nat → LogTables
  | 0 => ⟨fun _ => 0, fun _ => 0, 1⟩
  | i + 1 =>
    let tables := fillTables step i
    { antilog := Function.update tables.antilog i tables.val
      log := Function.update tables.log tables.val i
      val := step tables.val }

/-- `val <<= 1; if val & (1 << width) != 0 { val ^= poly }`. -/
def doubled (width poly val : Nat) : Nat :=
  if (val <<< 1) &&& (1 <<< width) ≠ 0 then (val <<< 1) ^^^ poly else val <<< 1

open GfSymbol
variable {w g : Nat}

theorem carry_iff (positive : 0 < w) (a : GfSymbol w g) :
    (a.toNat <<< 1) &&& (1 <<< w) ≠ 0 ↔ a.bits.msb = true := by
  have shifted : (a.toNat <<< 1).testBit w = a.bits.msb := by
    rw [testBit_shiftLeft, BitVec.msb_eq_getLsbD_last, ← BitVec.testBit_toNat]
    simp [show w ≥ 1 from positive, GfSymbol.toNat]
  rw [one_shiftLeft, and_two_pow, shifted]
  cases a.bits.msb <;> simp

/-- A stored power and the register agree bit for bit: the bit shifted out is
exactly the one the polynomial's leading term cancels. -/
theorem doubled_toNat (positive : 0 < w) (degree : g >>> w = 1) (a : GfSymbol w g) :
    doubled w g a.toNat = (turn a).toNat := by
  have fits : doubled w g a.toNat < 2 ^ w := by
    have small := a.toNat_lt
    rw [doubled, if_congr ((carry_iff positive a).trans BitVec.msb_eq_true_iff_two_mul_ge) rfl rfl, shiftLeft_eq]
    change (if 2 * a.toNat ≥ _ then _ else _) < _
    split
    · rw [shiftRight_eq_div_pow] at degree
      have gone : (a.toNat * 2 ^ 1 ^^^ g) / 2 ^ w = 0 := by
        rw [xor_div_two_pow, degree, Nat.div_eq_of_lt_le (k := 1) (by omega) (by omega), Nat.xor_self]
      exact (Nat.div_eq_zero_iff_lt (by positivity)).mp gone
    · omega
  rw [← mod_eq_of_lt fits, ← BitVec.toNat_ofNat]
  change _ = (turn a).bits.toNat
  rw [doubled, if_congr (carry_iff positive a) rfl rfl, turn]
  have shifted : BitVec.ofNat w (a.toNat <<< 1) = a.bits <<< 1 := BitVec.eq_of_toNat_eq (by simp [GfSymbol.toNat])
  split <;> simp [BitVec.ofNat_xor, *]

theorem toNat_one (positive : 0 < w) : (1 : GfSymbol w g).toNat = 1 := by
  change BitVec.toNat (1 : BitVec w) = 1
  simp [Nat.mod_eq_of_lt (Nat.one_lt_two_pow positive.ne')]

section Filled
variable {step : Nat → Nat} (steps : ∀ a : GfSymbol w g, step a.toNat = (turn a).toNat)
include steps

theorem fillTables_val (positive : 0 < w) (n : Nat) : (fillTables step n).val = (power n : GfSymbol w g).toNat := by
  induction n with
  | zero => exact (toNat_one positive).symm
  | succ n ih => rw [fillTables, ih, steps, power_succ]

theorem fillTables_antilog (positive : 0 < w) {n i : Nat} (stored : i < n) :
    (fillTables step n).antilog i = (power i : GfSymbol w g).toNat := by
  induction n with
  | zero => omega
  | succ n ih =>
    by_cases last : i = n
    · subst last
      simp [fillTables, fillTables_val steps positive]
    · rw [fillTables]
      simp only [Function.update_of_ne last]
      exact ih (by omega)

variable [primitive : Primitive w g]

/-- Each logarithm survives every later store because the powers below the
group order are pairwise distinct. -/
theorem fillTables_log {n i : Nat} (bound : n ≤ 2 ^ w - 1) (stored : i < n) :
    (fillTables step n).log (power i : GfSymbol w g).toNat = i := by
  induction n with
  | zero => omega
  | succ n ih =>
    rw [fillTables]
    simp only [fillTables_val steps primitive.positive]
    by_cases last : i = n
    · subst last
      simp
    · have distinct : (power i : GfSymbol w g).toNat ≠ (power n : GfSymbol w g).toNat := by
        intro same
        exact last (power_injOn (by omega) (by omega) (toNat_injective same))
      rw [Function.update_of_ne distinct]
      exact ih (by omega) (by omega)

end Filled
end Rarpar

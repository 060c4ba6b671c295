import Rarpar.Algebra.ShiftRegister

namespace Rarpar.GfSymbol
open Finset Function
variable {w g : Nat}

/-- The register runs through every nonzero symbol before it returns to one,
which is what makes a logarithm table possible. -/
class Primitive (w g : Nat) : Prop where
  positive : 0 < w
  period : (power (2 ^ w - 1) : GfSymbol w g) = 1
  reach : ∀ a : GfSymbol w g, a ≠ 0 → ∃ i < 2 ^ w - 1, power i = a

theorem one_ne_zero_sym (positive : 0 < w) : (1 : GfSymbol w g) ≠ 0 := by
  intro same
  have bits := congrArg (fun a : GfSymbol w g => a.bits.toNat) same
  simp at bits
  exact positive.ne' bits

theorem Primitive.order_pos (primitive : Primitive w g) : 0 < 2 ^ w - 1 := by
  have wide := Nat.one_lt_two_pow primitive.positive.ne'
  omega

section Field
variable [primitive : Primitive w g] {a : GfSymbol w g}

theorem power_mul_period (k : Nat) : (power (k * (2 ^ w - 1)) : GfSymbol w g) = 1 := by
  induction k with
  | zero => simp
  | succ k ih => rw [Nat.succ_mul, ← power_mul_power, ih, one_mul_sym, primitive.period]

theorem power_mod (i : Nat) : (power (i % (2 ^ w - 1)) : GfSymbol w g) = power i := by
  conv_rhs => rw [← Nat.div_add_mod' i (2 ^ w - 1), ← power_mul_power, power_mul_period, one_mul_sym]

theorem power_ne_zero (i : Nat) : (power i : GfSymbol w g) ≠ 0 := by
  intro vanish
  have back : (power (i * (2 ^ w - 1 - 1)) * power i : GfSymbol w g) = 1 := by
    rw [power_mul_power, ← Nat.mul_succ, Nat.succ_eq_add_one, Nat.sub_add_cancel primitive.order_pos,
      power_mul_period]
  rw [vanish, power_mul, iterate_turn_zero] at back
  exact one_ne_zero_sym primitive.positive back.symm

theorem exists_power (nonzero : a ≠ 0) : ∃ i, power i = a := by
  obtain ⟨i, _, reached⟩ := primitive.reach a nonzero
  exact ⟨i, reached⟩

theorem image_power : (range (2 ^ w - 1)).image (fun i => (power i : GfSymbol w g)) = univ.erase 0 := by
  ext a
  simp only [mem_image, mem_range, mem_erase, mem_univ, and_true]
  constructor
  · rintro ⟨i, _, rfl⟩
    exact power_ne_zero i
  · exact primitive.reach a

/-- The powers below the group order are pairwise distinct, by counting. -/
theorem power_injOn {i j : Nat} (hi : i < 2 ^ w - 1) (hj : j < 2 ^ w - 1)
    (same : (power i : GfSymbol w g) = power j) : i = j := by
  have count : ((range (2 ^ w - 1)).image (fun i => (power i : GfSymbol w g))).card =
      (range (2 ^ w - 1)).card := by
    rw [image_power, card_erase_of_mem (mem_univ _), card_univ, card, card_range]
  exact card_image_iff.mp count (mem_coe.mpr (mem_range.mpr hi))
    (mem_coe.mpr (mem_range.mpr hj)) same

theorem mul_zero_sym (a : GfSymbol w g) : a * 0 = 0 := by
  by_cases zero : a = 0
  · rw [zero, zero_mul_sym]
  · obtain ⟨i, rfl⟩ := exists_power zero
    rw [power_mul, iterate_turn_zero]

theorem mul_comm_sym (a b : GfSymbol w g) : a * b = b * a := by
  by_cases za : a = 0
  · rw [za, zero_mul_sym, mul_zero_sym]
  by_cases zb : b = 0
  · rw [zb, zero_mul_sym, mul_zero_sym]
  obtain ⟨i, rfl⟩ := exists_power za
  obtain ⟨j, rfl⟩ := exists_power zb
  rw [power_mul_power, power_mul_power, Nat.add_comm]

theorem mul_assoc_sym (a b c : GfSymbol w g) : a * b * c = a * (b * c) := by
  by_cases za : a = 0
  · simp only [za, zero_mul_sym]
  by_cases zb : b = 0
  · simp only [zb, zero_mul_sym, mul_zero_sym]
  obtain ⟨i, rfl⟩ := exists_power za
  obtain ⟨j, rfl⟩ := exists_power zb
  rw [power_mul_power, power_mul, power_mul, power_mul, iterate_add_apply]

theorem mul_add_sym (a b c : GfSymbol w g) : a * (b + c) = a * b + a * c := by
  by_cases za : a = 0
  · simp only [za, zero_mul_sym, add_zero]
  obtain ⟨i, rfl⟩ := exists_power za
  simp only [power_mul, iterate_turn_add]

instance : CommRing (GfSymbol w g) where
  mul_assoc := mul_assoc_sym
  one_mul := one_mul_sym
  mul_one a := (mul_comm_sym a 1).trans (one_mul_sym a)
  zero_mul := zero_mul_sym
  mul_zero := mul_zero_sym
  left_distrib := mul_add_sym
  right_distrib a b c := by rw [mul_comm_sym, mul_add_sym, mul_comm_sym c a, mul_comm_sym c b]
  mul_comm := mul_comm_sym
  __ := (inferInstance : AddCommGroup (GfSymbol w g))

theorem power_eq_pow (i : Nat) : (power i : GfSymbol w g) = power 1 ^ i := by
  induction i with
  | zero => exact (pow_zero _).symm
  | succ i ih => rw [← power_mul_power, ih, pow_succ]

theorem power_pow (i n : Nat) : (power i ^ n : GfSymbol w g) = power (i * n) := by
  rw [power_eq_pow, power_eq_pow (i * n), pow_mul]

theorem pow_order (nonzero : a ≠ 0) : a ^ (2 ^ w - 1) = 1 := by
  obtain ⟨i, rfl⟩ := exists_power nonzero
  rw [power_pow, power_mul_period]

/-- The product of the squares `a^2, a^4, …`, one factor a round. -/
def invLoop : Nat → GfSymbol w g → GfSymbol w g → GfSymbol w g
  | 0, _, acc => acc
  | n + 1, square, acc => invLoop n (square * square) (acc * (square * square))

theorem invLoop_eq (n : Nat) (square acc : GfSymbol w g) :
    invLoop n square acc = acc * square ^ (2 ^ (n + 1) - 2) := by
  induction n generalizing square acc with
  | zero => simp [invLoop]
  | succ n ih =>
    have split : 2 ^ (n + 1 + 1) - 2 = 2 + 2 * (2 ^ (n + 1) - 2) := by
      have big : 2 ≤ 2 ^ (n + 1) := Nat.le_self_pow (by omega) 2
      rw [pow_succ 2 (n + 1)]
      omega
    rw [invLoop, ih, split, pow_add square, pow_mul square, ← pow_two, mul_assoc]

instance : Inv (GfSymbol w g) := ⟨fun a => if a = 0 then 0 else invLoop (w - 1) a 1⟩

theorem mul_inv_sym (nonzero : a ≠ 0) : a * a⁻¹ = 1 := by
  have positive := primitive.positive
  have wide := Nat.one_lt_two_pow primitive.positive.ne'
  have unfolded : a⁻¹ = a ^ (2 ^ w - 2) := by
    change (if a = 0 then 0 else invLoop (w - 1) a 1) = _
    rw [if_neg nonzero, invLoop_eq, one_mul, Nat.sub_add_cancel positive]
  rw [unfolded, ← pow_succ', show 2 ^ w - 2 + 1 = 2 ^ w - 1 by omega, pow_order nonzero]

instance : Field (GfSymbol w g) where
  exists_pair_ne := ⟨0, 1, (one_ne_zero_sym primitive.positive).symm⟩
  mul_inv_cancel _ := mul_inv_sym
  inv_zero := if_pos rfl
  nnqsmul := _
  nnqsmul_def := fun _ _ => rfl
  qsmul := _
  qsmul_def := fun _ _ => rfl

instance : CharP (GfSymbol w g) 2 :=
  CharTwo.of_one_ne_zero_of_two_eq_zero (one_ne_zero_sym primitive.positive)
    (by rw [← one_add_one_eq_two]; exact add_self 1)

end Field

/-- Square-and-turn evaluation of `power` over the binary digits of its index. -/
def powerFast : Nat → Nat → GfSymbol w g
  | 0, _ => 1
  | fuel + 1, n =>
    if n % 2 = 1 then turn (powerFast fuel (n / 2) * powerFast fuel (n / 2))
    else powerFast fuel (n / 2) * powerFast fuel (n / 2)

theorem powerFast_eq (fuel n : Nat) (bound : n < 2 ^ fuel) : (powerFast fuel n : GfSymbol w g) = power n := by
  induction fuel generalizing n with
  | zero =>
    obtain rfl : n = 0 := by simpa using bound
    rfl
  | succ fuel ih =>
    rw [pow_succ] at bound
    rw [powerFast, ih (n / 2) (by omega), power_mul_power]
    split_ifs with odd
    · rw [← power_succ]
      congr 1
      omega
    · congr 1
      omega

/-- A register state of full period visits every nonzero symbol: its period
divides the group order and no maximal proper divisor of the order is a period. -/
theorem primitive_of_period (positive : 0 < w) (period : (power (2 ^ w - 1) : GfSymbol w g) = 1)
    (proper : ∀ p, p.Prime → p ∣ 2 ^ w - 1 → (power ((2 ^ w - 1) / p) : GfSymbol w g) ≠ 1) :
    Primitive w g := by
  have periodic : Function.IsPeriodicPt turn (2 ^ w - 1) (1 : GfSymbol w g) := period
  have exact : minimalPeriod turn (1 : GfSymbol w g) = 2 ^ w - 1 := by
    obtain ⟨k, quotient⟩ := periodic.minimalPeriod_dvd
    by_contra smaller
    have big : k ≠ 1 := by
      rintro rfl
      omega
    obtain ⟨p, prime, k', rfl⟩ := Nat.exists_prime_and_dvd big
    rw [Nat.mul_left_comm] at quotient
    refine proper p prime ⟨_, quotient⟩ ?_
    rw [quotient, Nat.mul_div_cancel_left _ prime.pos]
    exact (isPeriodicPt_minimalPeriod turn (1 : GfSymbol w g)).mul_const k'
  have injective : Set.InjOn (power : Nat → GfSymbol w g) (range (2 ^ w - 1)) := by
    have base := iterate_injOn_Iio_minimalPeriod (f := turn) (x := (1 : GfSymbol w g))
    rw [exact, ← coe_range] at base
    exact base
  have nonzero : Set.MapsTo (power : Nat → GfSymbol w g) (range (2 ^ w - 1)) (univ.erase (0 : GfSymbol w g)) := by
    intro i bound
    refine mem_coe.mpr (mem_erase.mpr ⟨fun vanish => one_ne_zero_sym (g := g) positive ?_, mem_univ _⟩)
    rw [← period, ← Nat.sub_add_cancel (mem_range.mp bound).le, ← power_mul_power, vanish, power_mul, iterate_turn_zero]
  refine ⟨positive, period, fun a ha => ?_⟩
  have counted : (univ.erase (0 : GfSymbol w g)).card ≤ (range (2 ^ w - 1)).card := by
    rw [card_range, card_erase_of_mem (mem_univ _), card_univ, card]
  obtain ⟨i, bound, same⟩ := surjOn_of_injOn_of_card_le _ nonzero injective counted (mem_erase.mpr ⟨ha, mem_univ a⟩)
  exact ⟨i, mem_range.mp bound, same⟩

theorem prime_dvd_255 {p : Nat} (prime : p.Prime) (divides : p ∣ 255) : p = 3 ∨ p = 5 ∨ p = 17 := by
  rw [show 255 = 3 * 5 * 17 by norm_num, prime.dvd_mul, prime.dvd_mul] at divides
  rcases divides with (h | h) | h
  · exact Or.inl ((Nat.prime_dvd_prime_iff_eq prime (by norm_num)).mp h)
  · exact Or.inr (Or.inl ((Nat.prime_dvd_prime_iff_eq prime (by norm_num)).mp h))
  · exact Or.inr (Or.inr ((Nat.prime_dvd_prime_iff_eq prime (by norm_num)).mp h))

theorem prime_dvd_65535 {p : Nat} (prime : p.Prime) (divides : p ∣ 65535) :
    p = 3 ∨ p = 5 ∨ p = 17 ∨ p = 257 := by
  rw [show 65535 = 255 * 257 by norm_num, prime.dvd_mul] at divides
  rcases divides with h | h
  · have small := prime_dvd_255 prime h
    tauto
  · exact Or.inr (Or.inr (Or.inr ((Nat.prime_dvd_prime_iff_eq prime (by norm_num)).mp h)))

theorem primitive_of_width8 (period : (powerFast 8 255 : GfSymbol 8 g) = 1)
    (proper : (powerFast 8 85 : GfSymbol 8 g) ≠ 1 ∧ (powerFast 8 51 : GfSymbol 8 g) ≠ 1 ∧ (powerFast 8 15 : GfSymbol 8 g) ≠ 1) :
    Primitive 8 g := by
  simp only [powerFast_eq 8 255 (by norm_num), powerFast_eq 8 85 (by norm_num), powerFast_eq 8 51 (by norm_num),
    powerFast_eq 8 15 (by norm_num)] at period proper
  refine primitive_of_period (by norm_num) period fun p prime divides => ?_
  rcases prime_dvd_255 prime divides with rfl | rfl | rfl
  · exact proper.1
  · exact proper.2.1
  · exact proper.2.2

theorem primitive_of_width16 (period : (powerFast 16 65535 : GfSymbol 16 g) = 1)
    (proper : (powerFast 16 21845 : GfSymbol 16 g) ≠ 1 ∧ (powerFast 16 13107 : GfSymbol 16 g) ≠ 1 ∧
      (powerFast 16 3855 : GfSymbol 16 g) ≠ 1 ∧ (powerFast 16 255 : GfSymbol 16 g) ≠ 1) :
    Primitive 16 g := by
  simp only [powerFast_eq 16 65535 (by norm_num), powerFast_eq 16 21845 (by norm_num),
    powerFast_eq 16 13107 (by norm_num), powerFast_eq 16 3855 (by norm_num),
    powerFast_eq 16 255 (by norm_num)] at period proper
  refine primitive_of_period (by norm_num) period fun p prime divides => ?_
  rcases prime_dvd_65535 prime divides with rfl | rfl | rfl | rfl
  · exact proper.1
  · exact proper.2.1
  · exact proper.2.2.1
  · exact proper.2.2.2

instance : Primitive 8 0x11D := primitive_of_width8 (by decide +kernel) (by decide +kernel)

instance : Primitive 16 0x1100B := primitive_of_width16 (by decide +kernel) (by decide +kernel)

instance : Primitive 16 0x1002D := primitive_of_width16 (by decide +kernel) (by decide +kernel)

end Rarpar.GfSymbol

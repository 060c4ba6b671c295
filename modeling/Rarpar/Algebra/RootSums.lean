import Mathlib.Algebra.BigOperators.Module
import Mathlib.RingTheory.RootsOfUnity.PrimitiveRoots

namespace Rarpar.RootSums
open Finset Nat
variable {K : Type*} [Field K] {ω : K} {n : Nat}

/-- Two coprime residues recombine to an exponent modulo the product. -/
theorem recombine {a b u v x y e : Nat} (unit : b * u + a * v ≡ 1 [MOD a * b]) (left : x ≡ u * e [MOD a])
    (right : y ≡ v * e [MOD b]) : b * x + a * y ≡ e [MOD a * b] := by
  have low : b * x ≡ b * (u * e) [MOD a * b] := by
    rw [mul_comm a b]
    exact left.mul_left' b
  refine (low.add (right.mul_left' a)).trans ?_
  rw [← mul_assoc, ← mul_assoc, ← add_mul]
  simpa only [one_mul] using unit.mul_right e

/-- An exponent counts modulo `p` under a weight that `p` carries to a multiple of the order. -/
theorem pow_mul_mod {p weight : Nat} (unity : ω ^ n = 1) (multiple : n ∣ weight * p) (k m : Nat) :
    ω ^ (weight * k * (m % p)) = ω ^ (weight * k * m) := by
  have residue : weight * (m % p) ≡ weight * m [MOD n] :=
    ((mod_modEq m p).mul_left' weight).of_dvd multiple
  apply pow_eq_pow_of_modEq _ unity
  rw [mul_right_comm, mul_right_comm weight k m]
  exact residue.mul_right k

/-- The powers of a root of unity are orthogonal. -/
theorem sum_inv_pow_mul_pow (primitive : IsPrimitiveRoot ω n) (u v : Nat) :
    ∑ k ∈ range n, ω⁻¹ ^ (k * v) * ω ^ (k * u) = if u ≡ v [MOD n] then (n : K) else 0 := by
  have term (k : Nat) : ω⁻¹ ^ (k * v) * ω ^ (k * u) = (ω⁻¹ ^ v * ω ^ u) ^ k := by
    rw [mul_pow, ← pow_mul, ← pow_mul, mul_comm v, mul_comm u]
  simp only [term]
  rcases Nat.eq_zero_or_pos n with rfl | positive
  · simp
  have nonzero : ω ≠ 0 := primitive.ne_zero positive.ne'
  split_ifs with same
  · have one : ω⁻¹ ^ v * ω ^ u = 1 := by
      rw [pow_eq_pow_of_modEq same primitive.pow_eq_one, inv_pow, inv_mul_cancel₀ (pow_ne_zero v nonzero)]
    rw [one]
    simp
  · have apart : ω⁻¹ ^ v * ω ^ u - 1 ≠ 0 := by
      intro zero
      rw [sub_eq_zero, inv_pow, inv_mul_eq_one₀ (pow_ne_zero v nonzero)] at zero
      rw [primitive.eq_orderOf] at same
      exact same ((primitive.isOfFinOrder positive.ne').pow_eq_pow_iff_modEq.mp zero.symm)
    have unity : (ω⁻¹ ^ v * ω ^ u) ^ n = 1 := by
      rw [mul_pow, ← pow_mul, ← pow_mul, mul_comm v, mul_comm u, pow_mul, pow_mul, inv_pow, primitive.pow_eq_one,
        inv_one, one_pow, one_pow, one_mul]
    have product := geom_sum_mul (ω⁻¹ ^ v * ω ^ u) n
    rw [unity, sub_self] at product
    exact (mul_eq_zero.mp product).resolve_right apart

section Convolution
variable {M : Type*} [AddCommGroup M] [Module K M]

/-- The product of two spectra transforms back to the cyclic convolution, scaled by the order. -/
theorem sum_spectra (primitive : IsPrimitiveRoot ω n) (a : Nat → K) (b : Nat → M) (live v : Nat) :
    ∑ k ∈ range n, ω⁻¹ ^ (k * v) • (∑ w ∈ range n, a w * ω ^ (k * w)) •
        ∑ row ∈ range live, ω ^ (k * row) • b row =
      ∑ row ∈ range live, ∑ w ∈ range n,
        ((if w + row ≡ v [MOD n] then (n : K) else 0) * a w) • b row := by
  simp only [← sum_inv_pow_mul_pow primitive, smul_sum, sum_smul, sum_mul, smul_smul]
  rw [sum_comm]
  refine sum_congr rfl fun row _ => ?_
  rw [sum_comm]
  refine sum_congr rfl fun w _ => sum_congr rfl fun k _ => ?_
  rw [mul_add, pow_add]
  congr 1
  ring

/-- A point of the convolution that no product wraps around to. -/
theorem sum_spectra_window (primitive : IsPrimitiveRoot ω n) (odd : (n : K) = 1) (a : Nat → K) (b : Nat → M)
    {live v : Nat} (inside : v < n) (window : live ≤ v + 1) :
    ∑ k ∈ range n, ω⁻¹ ^ (k * v) • (∑ w ∈ range n, a w * ω ^ (k * w)) •
        ∑ row ∈ range live, ω ^ (k * row) • b row =
      ∑ row ∈ range live, a (v - row) • b row := by
  rw [sum_spectra primitive]
  refine sum_congr rfl fun row member => ?_
  have below : row ≤ v := by
    have bound := mem_range.mp member
    omega
  have only (w : Nat) (listed : w ∈ range n) : w + row ≡ v [MOD n] ↔ w = v - row := by
    have bound := mem_range.mp listed
    constructor
    · intro same
      have reduced : w + row ≡ v - row + row [MOD n] := by rwa [Nat.sub_add_cancel below]
      exact (Nat.ModEq.add_right_cancel' row reduced).eq_of_lt_of_lt bound (by omega)
    · rintro rfl
      rw [Nat.sub_add_cancel below]
  rw [sum_eq_single_of_mem (v - row) (mem_range.mpr (by omega))]
  · rw [if_pos ((only _ (mem_range.mpr (by omega))).mpr rfl), odd, one_mul]
  · intro w listed other
    rw [if_neg (mt (only w listed).mp other), zero_mul, zero_smul]

end Convolution

end Rarpar.RootSums

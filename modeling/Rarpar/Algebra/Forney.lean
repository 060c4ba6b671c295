import Mathlib.Algebra.Polynomial.BigOperators
import Mathlib.Algebra.Polynomial.Derivative
import Mathlib.Algebra.Ring.GeomSum
import Mathlib.Tactic.LinearCombination

namespace Rarpar
open Polynomial Finset

namespace Forney
variable {K : Type*} [Field K] {ι : Type*}

/-- The polynomial whose roots are the inverses of the positions `x j`. -/
noncomputable def locator (s : Finset ι) (x : ι → K) : K[X] := ∏ j ∈ s, (1 - C (x j) * X)

theorem locator_eval (s : Finset ι) (x : ι → K) (y : K) : (locator s x).eval y = ∏ j ∈ s, (1 - x j * y) := by
  simp [locator, eval_prod]

theorem locator_natDegree_le (s : Finset ι) (x : ι → K) : (locator s x).natDegree ≤ s.card := by
  refine (natDegree_prod_le s _).trans ?_
  refine (sum_le_card_nsmul s _ 1 fun j _ => ?_).trans (by simp)
  refine (natDegree_sub_le _ _).trans ?_
  simpa using natDegree_C_mul_X_pow_le (x j) 1

variable [DecidableEq ι]

theorem locator_erase {s : Finset ι} {j : ι} (x : ι → K) (member : j ∈ s) :
    locator s x = (1 - C (x j) * X) * locator (s.erase j) x :=
  (mul_prod_erase s _ member).symm

/-- The locator times the generating function of the power sums of the errors. -/
noncomputable def evaluator (s : Finset ι) (x e : ι → K) : K[X] :=
  ∑ j ∈ s, C (e j * x j) * locator (s.erase j) x

/-- The power sums of the error values with exponents `1` to `n`, as coefficients. -/
noncomputable def syndromes (s : Finset ι) (x e : ι → K) (n : Nat) : K[X] :=
  ∑ i ∈ Finset.range n, C (∑ j ∈ s, e j * x j ^ (i + 1)) * X ^ i

variable {s : Finset ι} {x e : ι → K} {j : ι}

omit [DecidableEq ι] in
theorem syndromes_coeff (s : Finset ι) (x e : ι → K) {n k : Nat} (below : k < n) :
    (syndromes s x e n).coeff k = ∑ j ∈ s, e j * x j ^ (k + 1) := by
  rw [syndromes, finsetSum_coeff, sum_eq_single_of_mem k (mem_range.mpr below)]
  · simp only [coeff_C_mul, coeff_X_pow_self, mul_one]
  · intro i _ other
    rw [coeff_C_mul, coeff_X_pow, if_neg other.symm, mul_zero]

theorem evaluator_natDegree_lt {n : Nat} (few : s.card ≤ n) (positive : 0 < n) (x e : ι → K) :
    (evaluator s x e).natDegree < n := by
  refine (natDegree_sum_le_of_forall_le s _ (n := n - 1) fun j member => ?_).trans_lt (by omega)
  have size := card_erase_of_mem member
  refine (natDegree_C_mul_le _ _).trans ((locator_natDegree_le _ x).trans ?_)
  omega

/-- Below degree `n`, the locator times the syndromes is the evaluator. -/
theorem locator_mul_syndromes (s : Finset ι) (x e : ι → K) (n : Nat) :
    ∃ rest, locator s x * syndromes s x e n = evaluator s x e - X ^ n * rest := by
  refine ⟨∑ j ∈ s, C (e j * x j) * locator (s.erase j) x * C (x j ^ n), ?_⟩
  have columns : syndromes s x e n = ∑ j ∈ s, C (e j * x j) * ∑ i ∈ range n, (C (x j) * X) ^ i := by
    rw [syndromes]
    simp only [map_sum, sum_mul, mul_sum]
    rw [sum_comm]
    refine sum_congr rfl fun j _ => sum_congr rfl fun i _ => ?_
    simp only [map_mul, map_pow, mul_pow, pow_succ]
    ring
  rw [columns, mul_sum, evaluator, mul_sum, ← sum_sub_distrib]
  refine sum_congr rfl fun j member => ?_
  have geometric := mul_neg_geom_sum (C (x j) * X) n
  rw [locator_erase x member]
  simp only [map_mul, map_pow, mul_pow] at geometric ⊢
  linear_combination (locator (s.erase j) x * C (e j) * C (x j)) * geometric

theorem evaluator_coeff (s : Finset ι) (x e : ι → K) {n k : Nat} (below : k < n) :
    (locator s x * syndromes s x e n).coeff k = (evaluator s x e).coeff k := by
  obtain ⟨rest, product⟩ := locator_mul_syndromes s x e n
  rw [product, coeff_sub, coeff_X_pow_mul', if_neg (by omega), sub_zero]

theorem evaluator_eval (member : j ∈ s) (nonzero : x j ≠ 0) :
    (evaluator s x e).eval (x j)⁻¹ = e j * x j * (locator (s.erase j) x).eval (x j)⁻¹ := by
  rw [evaluator, eval_finsetSum, sum_eq_single_of_mem j member]
  · simp
  · intro k _ other
    rw [eval_mul, locator_eval, prod_eq_zero (i := j), mul_zero]
    · exact mem_erase.mpr ⟨other.symm, member⟩
    · rw [mul_inv_cancel₀ nonzero, sub_self]

theorem locator_derivative_eval (member : j ∈ s) (nonzero : x j ≠ 0) :
    (locator s x).derivative.eval (x j)⁻¹ = -(x j * (locator (s.erase j) x).eval (x j)⁻¹) := by
  rw [locator_erase x member, derivative_mul]
  simp [mul_inv_cancel₀ nonzero]

theorem locator_erase_eval_ne_zero (member : j ∈ s) (distinct : Set.InjOn x s) (nonzero : x j ≠ 0) :
    (locator (s.erase j) x).eval (x j)⁻¹ ≠ 0 := by
  rw [locator_eval, prod_ne_zero_iff]
  intro k other root
  rw [mem_erase] at other
  have same : x k = x j := by
    rw [← mul_inv_eq_one₀ nonzero]
    exact (sub_eq_zero.mp root).symm
  exact other.1 (distinct other.2 member same)

/-- The error value at a position is minus the evaluator over the derivative of the
locator, both at the inverse of the position. -/
theorem value_eq (e : ι → K) (member : j ∈ s) (distinct : Set.InjOn x s) (nonzero : x j ≠ 0) :
    e j = -((evaluator s x e).eval (x j)⁻¹ * ((locator s x).derivative.eval (x j)⁻¹)⁻¹) := by
  have regular := mul_ne_zero nonzero (locator_erase_eval_ne_zero member distinct nonzero)
  rw [evaluator_eval member nonzero, locator_derivative_eval member nonzero, inv_neg, mul_neg, neg_neg, mul_assoc (e j),
    mul_assoc, mul_inv_cancel₀ regular, mul_one]

/-- Vanishing power sums leave no error when they are at least as many as the positions. -/
theorem eq_zero_of_syndromes {n : Nat} (few : s.card ≤ n) (distinct : Set.InjOn x s)
    (nonzero : ∀ j ∈ s, x j ≠ 0) (zero : ∀ i < n, ∑ j ∈ s, e j * x j ^ (i + 1) = 0) (member : j ∈ s) :
    e j = 0 := by
  have positive : 0 < n := (card_pos.mpr ⟨j, member⟩).trans_le few
  have empty : syndromes s x e n = 0 := by
    refine sum_eq_zero fun i below => ?_
    rw [zero i (mem_range.mp below), C_0, zero_mul]
  have vanishes : evaluator s x e = 0 := by
    ext k
    by_cases below : k < n
    · rw [← evaluator_coeff s x e below, empty, mul_zero]
    · rw [coeff_eq_zero_of_natDegree_lt, coeff_zero]
      exact (evaluator_natDegree_lt few positive x e).trans_le (not_lt.mp below)
  rw [value_eq e member distinct (nonzero j member), vanishes, eval_zero, zero_mul, neg_zero]

end Forney
end Rarpar

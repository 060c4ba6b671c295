import Mathlib.LinearAlgebra.Lagrange
import Mathlib.Tactic.LinearCombination

namespace Rarpar.Cauchy
open Polynomial Lagrange Finset

variable {K ι : Type*} [Field K] [Fintype ι] [DecidableEq ι]

/-- The differences of a node to the other family over those to its own. -/
def weight (a b : ι → K) (i : ι) : K := (∏ k, (a i - b k)) * (∏ k ∈ Finset.univ.erase i, (a i - a k))⁻¹

section Inverse
variable {x y : ι → K} (distinctX : Function.Injective x) (distinctY : Function.Injective y) (apart : ∀ c r, x c ≠ y r)
include distinctX distinctY apart

omit distinctX in
/-- Interpolating the product over all columns but one through the rows. -/
theorem sum_weight (c c' : ι) : ∑ r, weight y x r * (y r - x c)⁻¹ * (x c' - y r)⁻¹ =
    (∏ k, (x c' - y k))⁻¹ * ∏ k ∈ univ.erase c, (x c' - x k) := by
  have outside (k : ι) : x c' - y k ≠ 0 := sub_ne_zero.mpr (apart c' k)
  have degree : (nodal (univ.erase c) x).degree < (univ : Finset ι).card := by
    rw [degree_nodal]
    exact_mod_cast card_erase_lt_of_mem (mem_univ c)
  have value := congrArg (eval (x c')) (eq_interpolate (Set.injOn_of_injective distinctY) degree)
  rw [interpolate_apply, eval_finsetSum, eval_nodal] at value
  rw [value, mul_sum]
  refine sum_congr rfl fun r _ => ?_
  have numerator : ∏ k, (y r - x k) = (y r - x c) * ∏ k ∈ univ.erase c, (y r - x k) :=
    (mul_prod_erase _ _ (mem_univ c)).symm
  have cancelX := mul_inv_cancel₀ (sub_ne_zero.mpr (apart c r).symm)
  have cancelY : (∏ k, (x c' - y k))⁻¹ * ∏ k, (x c' - y k) = 1 :=
    inv_mul_cancel₀ (prod_ne_zero_iff.mpr fun k _ => outside k)
  rw [eval_mul, eval_C, eval_basis_not_at_node (mem_univ r) (apart c' r), eval_nodal, eval_nodal, weight, numerator]
  simp only [nodalWeight, prod_inv_distrib]
  linear_combination (∏ k ∈ univ.erase c, (y r - x k)) * (∏ k ∈ univ.erase r, (y r - y k))⁻¹ *
    (x c' - y r)⁻¹ * (cancelX - cancelY)

/-- The products of the two weights over the differences invert the Cauchy matrix. -/
theorem inverse_sum (c c' : ι) :
    ∑ r, weight x y c * weight y x r * (y r - x c)⁻¹ * (x c' - y r)⁻¹ = if c = c' then 1 else 0 := by
  have gathered : ∑ r, weight x y c * weight y x r * (y r - x c)⁻¹ * (x c' - y r)⁻¹ =
      weight x y c * ((∏ k, (x c' - y k))⁻¹ * ∏ k ∈ univ.erase c, (x c' - x k)) := by
    rw [← sum_weight distinctY apart, mul_sum]
    exact sum_congr rfl fun r _ => by ring
  rw [gathered]
  split_ifs with same
  · subst same
    have first : ∏ k, (x c - y k) ≠ 0 := prod_ne_zero_iff.mpr fun k _ => sub_ne_zero.mpr (apart c k)
    have second : ∏ k ∈ univ.erase c, (x c - x k) ≠ 0 := prod_ne_zero_iff.mpr fun k other =>
      sub_ne_zero.mpr fun same => (mem_erase.mp other).1 (distinctX same.symm)
    rw [weight]
    field_simp
  · rw [prod_eq_zero (mem_erase.mpr ⟨Ne.symm same, mem_univ c'⟩) (sub_self _), mul_zero, mul_zero]

end Inverse
end Rarpar.Cauchy

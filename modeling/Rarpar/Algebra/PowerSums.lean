import Mathlib.LinearAlgebra.Lagrange

namespace Rarpar
open Polynomial Finset Lagrange

namespace PowerSums
variable {K : Type*} [Field K]

/-- The quotient by a root, coefficient by coefficient. -/
theorem coeff_divByMonic {P : K[X]} {n : Nat} (degree : P.natDegree ≤ n) (a : K) (r : Nat) :
    (P /ₘ (X - C a)).coeff r = ∑ t ∈ range n, a ^ t * P.coeff (r + t + 1) := by
  have inside : Finset.Icc (r + 1) P.natDegree ⊆ Finset.Ico (r + 1) (r + 1 + n) := by
    intro i member
    rw [mem_Icc] at member
    rw [mem_Ico]
    omega
  rw [coeff_divByMonic_X_sub_C, sum_subset inside, sum_Ico_eq_sum_range, Nat.add_sub_cancel_left]
  · refine sum_congr rfl fun t _ => ?_
    rw [Nat.add_sub_cancel_left, Nat.add_right_comm]
  · intro i listed outside
    rw [mem_Ico] at listed
    rw [mem_Icc, not_and, not_le] at outside
    rw [coeff_eq_zero_of_natDegree_lt (outside listed.1), mul_zero]

section Solve
variable {n : Nat} {g : Fin n → K}

theorem coeff_nodal_erase (g : Fin n → K) (c : Fin n) (r : Nat) :
    (nodal (univ.erase c) g).coeff r =
      ∑ t ∈ range n, g c ^ t * (nodal univ g).coeff (r + t + 1) := by
  have quotient : nodal (univ.erase c) g = nodal univ g /ₘ (X - C (g c)) := by
    rw [nodal_eq_mul_nodal_erase (mem_univ c), mul_divByMonic_cancel_left _ (monic_X_sub_C (g c))]
  rw [quotient, coeff_divByMonic]
  rw [natDegree_nodal, card_univ, Fintype.card_fin]

theorem nodal_erase_eval (g : Fin n → K) (c d : Fin n) :
    ∑ r ∈ range n, (nodal (univ.erase c) g).coeff r * g d ^ r =
      if d = c then (nodal univ g).derivative.eval (g c) else 0 := by
  have degree : (nodal (univ.erase c) g).natDegree < n := by
    rw [natDegree_nodal, card_erase_of_mem (mem_univ c), card_univ, Fintype.card_fin]
    exact Nat.sub_lt c.pos Nat.one_pos
  rw [← eval_eq_sum_range' degree]
  split_ifs with same
  · rw [same, eval_nodal_derivative_eval_node_eq (mem_univ c)]
  · exact eval_nodal_at_node (mem_erase.mpr ⟨same, mem_univ d⟩)

theorem nodal_derivative_ne_zero (distinct : Function.Injective g) (c : Fin n) :
    (nodal univ g).derivative.eval (g c) ≠ 0 := by
  rw [eval_nodal_derivative_eval_node_eq (mem_univ c)]
  refine eval_nodal_not_at_node fun d member same => ?_
  exact (mem_erase.mp member).1 (distinct same).symm

variable {M : Type*} [AddCommGroup M] [Module K M]

/-- The weighted power sums isolate one unknown, up to the derivative of the nodal
polynomial. -/
theorem sum_quotient_smul (g : Fin n → K) (y : Fin n → M) (c : Fin n) :
    ∑ t ∈ range n, g c ^ t • ∑ r ∈ range n,
        (nodal univ g).coeff (r + t + 1) • ∑ d, g d ^ r • y d =
      (nodal univ g).derivative.eval (g c) • y c := by
  have weights : ∑ t ∈ range n, g c ^ t • ∑ r ∈ range n,
      (nodal univ g).coeff (r + t + 1) • ∑ d, g d ^ r • y d =
      ∑ d, (∑ r ∈ range n, (nodal (univ.erase c) g).coeff r * g d ^ r) • y d := by
    simp only [coeff_nodal_erase, smul_sum, sum_smul, sum_mul, smul_smul]
    rw [sum_comm]
    refine (sum_congr rfl fun r _ => sum_comm).trans ?_
    rw [sum_comm]
    refine sum_congr rfl fun d _ => sum_congr rfl fun r _ => sum_congr rfl fun t _ => ?_
    rw [mul_assoc]
  rw [weights]
  simp only [nodal_erase_eval, ite_smul, zero_smul, sum_ite_eq', mem_univ, if_true]

end Solve
end PowerSums
end Rarpar

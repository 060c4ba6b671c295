import Mathlib.LinearAlgebra.Lagrange
import Mathlib.Tactic.LinearCombination
import Rarpar.Algebra.Elimination

namespace Rarpar
open Polynomial Matrix Finset

namespace Cauchy
variable {K : Type*} [Field K] {ι κ : Type*} [DecidableEq κ]

/-- The numerator of `∑ j ∈ columns, v j / (X - y j)` over the common denominator. -/
noncomputable def numerator (columns : Finset κ) (y v : κ → K) : K[X] :=
  ∑ j ∈ columns, C (v j) * ∏ l ∈ columns.erase j, (X - C (y l))

theorem numerator_degree_lt (columns : Finset κ) (y v : κ → K) :
    (numerator columns y v).degree < columns.card := by
  refine (degree_sum_le _ _).trans_lt ((Finset.sup_lt_iff (WithBot.bot_lt_coe columns.card)).mpr fun j member => ?_)
  rw [← smul_eq_C_mul]
  exact (degree_smul_le _ _).trans_lt (Lagrange.degree_nodal.trans_lt (Nat.cast_lt.mpr (card_erase_lt_of_mem member)))

theorem numerator_eval {columns : Finset κ} {y : κ → K} (v : κ → K) {x : K}
    (apart : ∀ j ∈ columns, x - y j ≠ 0) :
    (numerator columns y v).eval x = (∏ l ∈ columns, (x - y l)) * ∑ j ∈ columns, (x - y j)⁻¹ * v j := by
  rw [numerator, eval_finsetSum, mul_sum]
  refine sum_congr rfl fun j member => ?_
  rw [← mul_prod_erase columns _ member, eval_mul, eval_C, eval_prod]
  simp only [eval_sub, eval_X, eval_C]
  have cancel := mul_inv_cancel₀ (apart j member)
  linear_combination (-(∏ l ∈ columns.erase j, (x - y l)) * v j) * cancel

theorem numerator_eval_node {columns : Finset κ} (y v : κ → K) {j : κ} (member : j ∈ columns) :
    (numerator columns y v).eval (y j) = v j * ∏ l ∈ columns.erase j, (y j - y l) := by
  rw [numerator, eval_finsetSum, sum_eq_single_of_mem j member]
  · simp [eval_prod]
  · intro l _ other
    rw [eval_mul, eval_prod, prod_eq_zero (i := j), mul_zero]
    · exact mem_erase.mpr ⟨other.symm, member⟩
    · simp

/-- A Cauchy block with at least as many rows as columns has a trivial kernel. -/
theorem kernel_trivial (rows : Finset ι) (columns : Finset κ) {x : ι → K} {y v : κ → K}
    (size : columns.card ≤ rows.card) (distinctRows : Set.InjOn x rows) (distinctColumns : Set.InjOn y columns)
    (apart : ∀ i ∈ rows, ∀ j ∈ columns, x i - y j ≠ 0)
    (zero : ∀ i ∈ rows, ∑ j ∈ columns, (x i - y j)⁻¹ * v j = 0) {j : κ} (member : j ∈ columns) : v j = 0 := by
  have vanishes : numerator columns y v = 0 := by
    apply eq_zero_of_degree_lt_of_eval_index_eq_zero rows distinctRows
    · exact (numerator_degree_lt columns y v).trans_le (by exact_mod_cast size)
    · intro i row
      rw [numerator_eval v (apart i row), zero i row, mul_zero]
  have node := numerator_eval_node y v member
  rw [vanishes, eval_zero, eq_comm, mul_eq_zero] at node
  refine node.resolve_right (prod_ne_zero_iff.mpr fun l other => sub_ne_zero.mpr fun same => ?_)
  rw [mem_erase] at other
  exact other.1 (distinctColumns other.2 member same.symm)

/-- Every leading block of a Cauchy matrix is regular, so elimination meets no
zero pivot. -/
theorem leadingRegular {m : Nat} {x y : Fin m → K} (distinctRows : Function.Injective x)
    (distinctColumns : Function.Injective y) (apart : ∀ i j, x i - y j ≠ 0) (n : Nat) :
    Elimination.LeadingRegular (Matrix.of fun i j => (x i - y j)⁻¹) n := by
  intro v head rows
  let block : Finset (Fin m) := {j | (j : Nat) < n}
  funext j
  by_cases below : (j : Nat) < n
  · refine kernel_trivial block block le_rfl distinctRows.injOn distinctColumns.injOn
      (fun i _ j _ => apart i j) ?_ (by simpa [block] using below)
    intro i member
    have row := rows i (by simpa [block] using member)
    rw [← row, Matrix.mulVec, dotProduct]
    refine sum_subset (subset_univ block) fun l _ outside => ?_
    rw [head l (by simpa [block] using outside), mul_zero]
  · exact head j (by omega)

end Cauchy
end Rarpar

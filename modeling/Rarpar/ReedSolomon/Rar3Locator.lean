import Rarpar.Algebra.Forney
import Rarpar.ReedSolomon.Rar3Encode

namespace Rarpar
open GfSymbol Polynomial List

namespace Rar3RsCoder
variable {parSize dataSize : Nat} {erasures : List Nat}

/-- The power that stands for a position of the block. -/
def position (dataSize : Nat) (p : Nat) : Byte := power (dataSize - p - 1)

theorem power_eq_one_iff (i : Nat) : (power i : Byte) = 1 ↔ maxPar ∣ i := by
  constructor
  · intro one
    have reduced : (power (i % maxPar) : Byte) = power 0 := (power_mod (w := 8) i).trans one
    exact Nat.dvd_of_mod_eq_zero (power_injOn (Nat.mod_lt i (by decide)) (by decide) reduced)
  · rintro ⟨k, rfl⟩
    rw [mul_comm]
    exact power_mul_period k

theorem position_inj (bound : dataSize ≤ maxPar) {p q : Nat} (hp : p < dataSize) (hq : q < dataSize)
    (same : position dataSize p = position dataSize q) : p = q := by
  simp only [maxPar] at bound
  have equal := power_injOn (by omega) (by omega) same
  omega

theorem position_inv {loc : Nat} (bound : loc ≤ maxPar) : (power (maxPar - loc) : Byte) = (power loc)⁻¹ := by
  apply eq_inv_of_mul_eq_one_left
  rw [power_mul_power, Nat.sub_add_cancel bound]
  exact Primitive.period (w := 8) (g := 0x11D)

/-- The locator of the erasures, over the field. -/
noncomputable def erasureLocator (dataSize : Nat) (erasures : List Nat) : Byte[X] :=
  Forney.locator erasures.toFinset (position dataSize)

theorem locatorPol_coeff (nodup : erasures.Nodup) {i : Nat} (below : i ≤ parSize) :
    locatorPol parSize dataSize erasures i = (erasureLocator dataSize erasures).coeff i := by
  have run (front : List Nat) : ∀ i ≤ parSize, locatorPol parSize dataSize front i =
      ((front.map fun p => 1 - C (position dataSize p) * X).prod).coeff i := by
    induction front using reverseRecOn with
    | nil =>
      intro i _
      simp [locatorPol, coeff_one]
    | append_singleton front p ih =>
      intro i inside
      have step : locatorPol parSize dataSize (front ++ [p]) =
          locatorStep parSize dataSize (locatorPol parSize dataSize front) p := by
        rw [locatorPol, foldl_append]
        rfl
      rw [step, map_append, prod_append, map_singleton, prod_singleton, mul_comm, sub_mul, one_mul,
        coeff_sub, mul_assoc, coeff_C_mul]
      simp only [locatorStep, gfMult_eq, gfExp_eq]
      cases i with
      | zero => simp [ih 0 inside]
      | succ i =>
        rw [if_pos (by omega), ih _ inside, Nat.add_sub_cancel, ih i (by omega), coeff_X_mul, CharTwo.sub_eq_add]
        rfl
  rw [run _ i below, erasureLocator, Forney.locator, prod_toFinset _ nodup]

theorem sum_odd (term : Nat → Byte) (n : Nat) :
    (((range' 1 n).filter (· % 2 = 1)).map term).sum =
      ∑ i ∈ Finset.range (n + 1), if i % 2 = 1 then term i else 0 := by
  induction n with
  | zero => simp
  | succ n ih =>
    rw [Finset.sum_range_succ, ← ih, range'_concat, filter_append, map_append, sum_append]
    by_cases odd : (n + 1) % 2 = 1
    · simp [odd, add_comm 1 n]
    · simp [odd, add_comm 1 n]

section
variable (nodup : erasures.Nodup) (few : erasures.length ≤ parSize)
include nodup few

theorem erasureLocator_natDegree_lt : (erasureLocator dataSize erasures).natDegree < parSize + 1 := by
  have degree := Forney.locator_natDegree_le erasures.toFinset (position dataSize)
  rw [toFinset_card_of_nodup nodup] at degree
  exact Nat.lt_succ_of_le (degree.trans few)

theorem rootSum_eq (root : Nat) :
    rootSum parSize (locatorPol parSize dataSize erasures) root = (erasureLocator dataSize erasures).eval (power root) := by
  rw [rootSum, Accumulate.foldl_add, Accumulate.sum_map_range, zero_add,
    eval_eq_sum_range' (erasureLocator_natDegree_lt nodup few)]
  refine Finset.sum_congr rfl fun b member => ?_
  rw [locatorPol_coeff nodup (by simpa [Nat.lt_succ_iff] using member), gfMult_eq, gfExp_eq, mul_comm]
  have reduced : (power (b * root % maxPar) : Byte) = power (b * root) := power_mod (w := 8) _
  rw [reduced, mul_comm b root, power_pow]

/-- In characteristic two only the odd coefficients reach the derivative. -/
theorem rootDerivative_eq (root : Nat) :
    rootDerivative parSize (locatorPol parSize dataSize erasures) root =
      (erasureLocator dataSize erasures).derivative.eval (power root) := by
  rw [rootDerivative, Accumulate.foldl_add, sum_odd, zero_add, derivative_eval,
    sum_over_range' _ (by simp) _ (erasureLocator_natDegree_lt nodup few)]
  refine Finset.sum_congr rfl fun i member => ?_
  rw [locatorPol_coeff nodup (by simpa [Nat.lt_succ_iff] using member), gfMult_eq, gfExp_eq]
  have reduced : (power (root * (i - 1) % maxPar) : Byte) = power (root * (i - 1)) := power_mod (w := 8) _
  rw [reduced, power_pow]
  rcases Nat.mod_two_eq_zero_or_one i with even | odd
  · have cast : (i : Byte) = 0 := by rw [CharTwo.natCast_eq_mod, even, Nat.cast_zero]
    simp [even, cast]
  · have cast : (i : Byte) = 1 := by rw [CharTwo.natCast_eq_mod, odd, Nat.cast_one]
    simp [odd, cast]

end

theorem erasureLocator_root_iff (root : Nat) : (erasureLocator dataSize erasures).eval (power root) = 0 ↔
    ∃ p ∈ erasures, maxPar ∣ dataSize - p - 1 + root := by
  rw [erasureLocator, Forney.locator_eval, Finset.prod_eq_zero_iff]
  simp only [mem_toFinset, position, power_mul_power, sub_eq_zero, eq_comm (a := (1 : Byte)), power_eq_one_iff]

theorem root_of_position (bound : dataSize ≤ maxPar) {p : Nat} (below : p < dataSize) :
    maxPar - dataSize + (p + 1) = maxPar - (dataSize - p - 1) := by
  omega

section
variable (bound : dataSize ≤ maxPar) (nodup : erasures.Nodup) (inside : ∀ p ∈ erasures, p < dataSize)
  (few : erasures.length ≤ parSize)
include bound nodup inside few

theorem rootSum_first :
    rootSum parSize (locatorPol parSize dataSize erasures) (maxPar - dataSize) = 0 ↔ 254 ∈ erasures := by
  simp only [maxPar] at bound
  rw [rootSum_eq nodup few, erasureLocator_root_iff]
  constructor
  · rintro ⟨p, member, divides⟩
    have below := inside p member
    have small : dataSize - p - 1 + (maxPar - dataSize) = 0 := by
      refine Nat.eq_zero_of_dvd_of_lt divides ?_
      simp only [maxPar]
      omega
    have last : p = 254 := by
      simp only [maxPar] at small
      omega
    rwa [← last]
  · intro member
    have below := inside 254 member
    have full : dataSize = 255 := by omega
    subst full
    exact ⟨254, member, by decide⟩

theorem rootSum_later {p : Nat} (below : p < dataSize) :
    rootSum parSize (locatorPol parSize dataSize erasures) (maxPar - (dataSize - p - 1)) = 0 ↔ p ∈ erasures := by
  rw [rootSum_eq nodup few, erasureLocator_root_iff]
  constructor
  · rintro ⟨q, member, divides⟩
    have inner := inside q member
    obtain ⟨turns, product⟩ := divides
    simp only [maxPar] at bound product
    have same : q = p := by omega
    rwa [← same]
  · intro member
    refine ⟨p, member, 1, ?_⟩
    omega

/-- The roots found are the erased positions in order. In a block of full length the
last position is found twice, first as a root that stands before the block. -/
theorem searchRoots_eq :
    searchRoots parSize dataSize (locatorPol parSize dataSize erasures) =
      (if 254 ∈ erasures then
        [(dataSize, rootDerivative parSize (locatorPol parSize dataSize erasures) (maxPar - dataSize))] else []) ++
      ((range dataSize).filter (· ∈ erasures)).map fun p =>
        (dataSize - p - 1, (erasureLocator dataSize erasures).derivative.eval (position dataSize p)⁻¹) := by
  have split : range' (maxPar - dataSize) (dataSize + 1) =
      (maxPar - dataSize) :: (range dataSize).map fun p => maxPar - (dataSize - p - 1) := by
    rw [range'_eq_map_range, range_succ_eq_map, map_cons, map_map, Nat.add_zero]
    refine congrArg _ (map_congr_left fun p member => ?_)
    exact root_of_position bound (mem_range.mp member)
  have entry (p : Nat) : (maxPar - (maxPar - (dataSize - p - 1)),
      rootDerivative parSize (locatorPol parSize dataSize erasures) (maxPar - (dataSize - p - 1))) =
      (dataSize - p - 1, (erasureLocator dataSize erasures).derivative.eval (position dataSize p)⁻¹) := by
    rw [rootDerivative_eq nodup few, position_inv (by omega), Nat.sub_sub_self (by omega)]
    rfl
  rw [searchRoots, split, filter_cons, filter_map, filter_congr fun p member => by
    rw [Function.comp_apply, decide_eq_decide.mpr (rootSum_later bound nodup inside few (mem_range.mp member))]]
  simp only [decide_eq_true_eq, rootSum_first bound nodup inside few]
  split
  · simp only [map_cons, map_map, Function.comp_def, entry, Nat.sub_sub_self bound]
    rfl
  · simp only [map_map, Function.comp_def, entry]
    rfl

end

end Rar3RsCoder
end Rarpar

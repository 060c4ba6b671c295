import Rarpar.ReedSolomon.Rar3Locator

namespace Rarpar
open GfSymbol Polynomial List Accumulate

namespace Rar3RsCoder
variable {parSize dataSize : Nat} {erasures : List Nat} {codeword block : List Byte}

/-- A block that differs from a codeword at the erased positions only. -/
structure Damaged (parSize : Nat) (erasures : List Nat) (codeword block : List Byte) : Prop where
  nodup : erasures.Nodup
  few : erasures.length ≤ parSize
  nonempty : 0 < codeword.length
  bound : codeword.length ≤ maxPar
  length : block.length = codeword.length
  inside : ∀ p ∈ erasures, p < codeword.length
  kept : ∀ p, p ∉ erasures → block[p]? = codeword[p]?
  zero : ∀ i < parSize, syndrome codeword i = 0

def errorValue (codeword block : List Byte) (p : Nat) : Byte := block.getD p 0 + codeword.getD p 0

theorem syndrome_eq_sum (data : List Byte) (i : Nat) :
    syndrome data i = ∑ p ∈ Finset.range data.length, data.getD p 0 * position data.length p ^ (i + 1) := by
  simp only [syndrome, gfMult_eq, gfExp_eq]
  rw [foldl_horner]
  refine Finset.sum_congr rfl fun p _ => ?_
  rw [position, power_pow, power_pow, mul_comm (i + 1), Nat.sub_right_comm]

section
variable (damaged : Damaged parSize erasures codeword block)
include damaged

theorem Damaged.distinct : Set.InjOn (position codeword.length) erasures.toFinset := by
  intro p member q member' same
  rw [Finset.mem_coe, mem_toFinset] at member member'
  exact position_inj damaged.bound (damaged.inside p member) (damaged.inside q member') same

theorem Damaged.card_le : erasures.toFinset.card ≤ parSize := by
  rw [toFinset_card_of_nodup damaged.nodup]
  exact damaged.few

theorem Damaged.syndrome_eq {i : Nat} (below : i < parSize) :
    syndrome block i = ∑ p ∈ erasures.toFinset,
      errorValue codeword block p * position codeword.length p ^ (i + 1) := by
  rw [← add_zero (syndrome block i), ← damaged.zero i below, syndrome_eq_sum, syndrome_eq_sum, damaged.length,
    ← Finset.sum_add_distrib]
  simp only [← add_mul]
  refine (Finset.sum_subset ?_ ?_).symm
  · intro p member
    exact Finset.mem_range.mpr (damaged.inside p (mem_toFinset.mp member))
  · intro p _ outside
    have same := damaged.kept p (by simpa using outside)
    rw [getD_eq_getElem?_getD, same, ← getD_eq_getElem?_getD, CharTwo.add_self_eq_zero, zero_mul]

theorem Damaged.eq_codeword_iff : block = codeword ↔ ∀ p ∈ erasures, errorValue codeword block p = 0 := by
  constructor
  · rintro rfl p _
    exact CharTwo.add_self_eq_zero _
  · intro clean
    apply ext_getElem?
    intro p
    by_cases member : p ∈ erasures
    · have equal := CharTwo.add_eq_zero.mp (clean p member)
      have inside := damaged.inside p member
      have inside' := damaged.length ▸ inside
      rw [getD_eq_getElem _ _ inside, getD_eq_getElem _ _ inside'] at equal
      rw [getElem?_eq_getElem inside, getElem?_eq_getElem inside', equal]
    · exact damaged.kept p member

/-- The syndromes vanish only when nothing is damaged. -/
theorem Damaged.syndromes_eq_zero_iff : (∀ i < parSize, syndrome block i = 0) ↔ block = codeword := by
  constructor
  · intro zero
    rw [damaged.eq_codeword_iff]
    intro p member
    refine Forney.eq_zero_of_syndromes damaged.card_le damaged.distinct (fun q _ => power_ne_zero _) ?_
      (mem_toFinset.mpr member)
    intro i below
    rw [← damaged.syndrome_eq below, zero i below]
  · rintro rfl
    exact damaged.zero

end

noncomputable def errorEvaluator (erasures : List Nat) (codeword block : List Byte) : Byte[X] :=
  Forney.evaluator erasures.toFinset (position codeword.length) (errorValue codeword block)

section
variable (damaged : Damaged parSize erasures codeword block)
include damaged

theorem Damaged.pnMult_coeff {k : Nat} (below : k < parSize) :
    pnMult parSize (locatorPol parSize codeword.length erasures) (syndrome block) k =
      (errorEvaluator erasures codeword block).coeff k := by
  rw [errorEvaluator, ← Forney.evaluator_coeff _ _ _ below, coeff_mul,
    Finset.Nat.sum_antidiagonal_eq_sum_range_succ_mk, pnMult_eq below]
  refine Finset.sum_congr rfl fun i member => ?_
  have first := Finset.mem_range.mp member
  rw [locatorPol_coeff damaged.nodup (by omega), damaged.syndrome_eq (by omega), Forney.syndromes_coeff _ _ _ (by omega)]
  rfl

theorem Damaged.evaluate_eq {p : Nat} (member : p ∈ erasures) :
    evaluate parSize (pnMult parSize (locatorPol parSize codeword.length erasures) (syndrome block))
      (codeword.length - p - 1) = (errorEvaluator erasures codeword block).eval (position codeword.length p)⁻¹ := by
  have positive : 0 < parSize := (length_pos_of_mem member).trans_le damaged.few
  have degree : (errorEvaluator erasures codeword block).natDegree < parSize :=
    Forney.evaluator_natDegree_lt damaged.card_le positive _ _
  have bound := damaged.bound
  rw [evaluate, foldl_add, sum_map_range, zero_add, eval_eq_sum_range' degree]
  refine Finset.sum_congr rfl fun j index => ?_
  have reduced : (power ((maxPar - (codeword.length - p - 1)) * j % maxPar) : Byte) =
      power ((maxPar - (codeword.length - p - 1)) * j) := power_mod (w := 8) _
  rw [damaged.pnMult_coeff (Finset.mem_range.mp index), gfMult_eq, gfExp_eq, reduced, position,
    ← position_inv (by omega), power_pow]

/-- The correction computed for an erased position is its error value. -/
theorem Damaged.correction_eq {p : Nat} (member : p ∈ erasures) :
    gfMult (evaluate parSize (pnMult parSize (locatorPol parSize codeword.length erasures) (syndrome block))
        (codeword.length - p - 1))
      (gfExp (maxPar - gfLog ((erasureLocator codeword.length erasures).derivative.eval
        (position codeword.length p)⁻¹))) = errorValue codeword block p := by
  have listed := mem_toFinset.mpr member
  have nonzero : position codeword.length p ≠ 0 := power_ne_zero _
  have simple : (erasureLocator codeword.length erasures).derivative.eval (position codeword.length p)⁻¹ ≠ 0 := by
    rw [erasureLocator, Forney.locator_derivative_eval listed nonzero, neg_ne_zero]
    exact mul_ne_zero nonzero (Forney.locator_erase_eval_ne_zero listed damaged.distinct nonzero)
  rw [damaged.evaluate_eq member, gfExp_inv simple, gfMult_eq,
    Forney.value_eq (errorValue _ block) listed damaged.distinct nonzero, CharTwo.neg_eq]
  rfl

end

/-- A root before the block corrects nothing. -/
theorem foldl_correct_skip (eePol : Nat → Byte) (dnm : Byte) {data : List Byte} (length : data.length = dataSize) (found : Prop)
    [Decidable found] : (if found then [(dataSize, dnm)] else []).foldl (correct parSize eePol) data = data := by
  subst length
  split
  · rw [foldl_cons, foldl_nil, correct, if_neg (Nat.not_succ_le_self _)]
  · rfl

/-- Corrections at positions of the block, as additions to single entries. -/
theorem foldl_correct (parSize : Nat) (eePol : Nat → Byte) (dnm : Nat → Byte) (found : List Nat) (inside : ∀ p ∈ found, p < dataSize)
    (data : List Byte) (length : data.length = dataSize) :
    (found.map fun p => (dataSize - p - 1, dnm p)).foldl (correct parSize eePol) data =
      found.foldl (fun data p => data.modify p (· +
        gfMult (evaluate parSize eePol (dataSize - p - 1)) (gfExp (maxPar - gfLog (dnm p))))) data := by
  induction found generalizing data with
  | nil => rfl
  | cons p rest ih =>
    obtain ⟨below, inside⟩ := forall_mem_cons.mp inside
    have back : dataSize - (dataSize - p - 1) - 1 = p := by omega
    rw [map_cons, foldl_cons, foldl_cons, ← ih inside _ (by rw [length_modify, length])]
    refine congrArg (foldl _ · _) ?_
    simp only [correct, length, back]
    exact if_pos (by omega)

section
variable (damaged : Damaged parSize erasures codeword block)
include damaged

theorem Damaged.found_length : ((range codeword.length).filter (· ∈ erasures)).length = erasures.length := by
  apply List.Perm.length_eq
  rw [perm_ext_iff_of_nodup (nodup_range.filter _) damaged.nodup]
  intro p
  simp only [mem_filter, mem_range, decide_eq_true_eq, and_iff_right_iff_imp]
  exact damaged.inside p

/-- The corrections turn the damaged block into the codeword. -/
theorem Damaged.foldl_modify_eq (value : Nat → Byte)
    (correction : ∀ p ∈ erasures, value p = errorValue codeword block p) :
    ((range codeword.length).filter (· ∈ erasures)).foldl (fun data p => data.modify p (· + value p)) block =
      codeword := by
  apply ext_getElem?
  intro p
  rw [foldl_modify_add value (nodup_range.filter _)]
  by_cases member : p ∈ erasures
  · have inside := damaged.inside p member
    have inside' := damaged.length ▸ inside
    rw [if_pos (by simp [member, inside]), correction p member, getElem?_eq_getElem inside,
      getElem?_eq_getElem inside', errorValue, getD_eq_getElem _ _ inside, getD_eq_getElem _ _ inside',
      Option.map_some, CharTwo.add_cancel_left]
  · rw [if_neg (by simp [member]), damaged.kept p member]

theorem Damaged.errors_length :
    (buildLocator parSize block.length erasures).errors.length =
      (if 254 ∈ erasures then 1 else 0) + erasures.length := by
  have found := damaged.found_length
  rw [damaged.length, buildLocator, searchRoots_eq damaged.bound damaged.nodup damaged.inside damaged.few,
    length_append, length_map, found]
  split <;> rfl

theorem Damaged.foldl_correct_eq :
    (buildLocator parSize block.length erasures).errors.foldl (correct parSize
      (pnMult parSize (locatorPol parSize block.length erasures) (syndrome block))) block = codeword := by
  rw [damaged.length, buildLocator, searchRoots_eq damaged.bound damaged.nodup damaged.inside damaged.few, foldl_append,
    foldl_correct_skip _ _ damaged.length, foldl_correct parSize _ _ _ (fun p member => mem_range.mp (mem_filter.mp member).1) _
      damaged.length]
  exact damaged.foldl_modify_eq _ fun p member => damaged.correction_eq member

end

/-- The decoder with a locator for this block. It refuses exactly the damaged blocks
whose found roots outnumber the parity symbols. -/
theorem Damaged.decode_eq {coder : Rar3RsCoder} (damaged : Damaged coder.parSize erasures codeword block)
    (current : coder.currentLocator block.length erasures = buildLocator coder.parSize block.length erasures) :
    (coder.decode block erasures).2 =
      if block ≠ codeword ∧ 254 ∈ erasures ∧ erasures.length = coder.parSize then (block, false)
      else (codeword, true) := by
  have length := damaged.length
  have bound := damaged.bound
  have nonempty := damaged.nonempty
  have few := damaged.few
  have accepted : ¬ (block.length = 0 ∨ maxPar < block.length ∨ coder.parSize < erasures.length ∨
      ∃ loc ∈ erasures, block.length ≤ loc) := by
    rintro (empty | long | many | ⟨loc, member, outside⟩)
    · omega
    · omega
    · omega
    · have inside := damaged.inside loc member
      omega
  rw [decode, if_neg accepted]
  by_cases same : block = codeword
  · rw [if_pos (damaged.syndromes_eq_zero_iff.mpr same), if_neg (by simp [same]), same]
  · have listed : 0 < erasures.length := by
      rw [length_pos_iff]
      rintro rfl
      exact same (damaged.eq_codeword_iff.mpr (by simp))
    rw [if_neg (mt damaged.syndromes_eq_zero_iff.mp same)]
    have count := damaged.errors_length
    simp only [current]
    by_cases refused : 254 ∈ erasures ∧ erasures.length = coder.parSize
    · have many : ¬ (buildLocator coder.parSize block.length erasures).errors.length ≤ coder.parSize := by
        rw [count, if_pos refused.1]
        omega
      simp [many, same, refused]
    · have fits : (buildLocator coder.parSize block.length erasures).errors.length ≤ coder.parSize := by
        rw [count]
        split_ifs with last
        · have spare : erasures.length ≠ coder.parSize := fun equal => refused ⟨last, equal⟩
          omega
        · omega
      have some : 0 < (buildLocator coder.parSize block.length erasures).errors.length := by
        rw [count]
        omega
      rw [if_neg (fun both : _ ∧ _ ∧ _ => refused both.2)]
      simp only [fits, some, and_self, if_true, decide_true]
      exact congrArg (·, true) damaged.foldl_correct_eq

end Rar3RsCoder
end Rarpar

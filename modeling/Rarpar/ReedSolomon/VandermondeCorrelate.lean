import Rarpar.Algebra.Accumulate
import Rarpar.Algebra.RootSums
import Rarpar.ReedSolomon.VandermondeSolve

namespace Rarpar
open GfSymbol Buffer List Nat Accumulate

namespace VandermondeSolve
variable {words : Nat} (inverse : Bool)

theorem fold_eq (dst : Region words) (terms : List (Word × Region words)) :
    fold dst terms = dst + (terms.map fun term => term.1 • term.2).sum := GfSimd.mulAccBatches_eq batchSources dst terms

theorem fold_range (n : Nat) (factor : Nat → Word) (source : Nat → Region words) :
    fold 0 ((range n).map fun i => (factor i, source i)) = ∑ i ∈ Finset.range n, factor i • source i := by
  rw [fold_eq, zero_add, map_map]
  exact sum_map_range _ n

theorem ofNat_two : (.ofNat 2 : Word) = power 1 := by decide

theorem pow_two_eq (i : Nat) : Gf.pow (.ofNat 2) i = power i := by
  rw [Gf.pow_eq, ofNat_two, power_pow, one_mul]

/-- The root of unity of order 255. -/
def convRoot : Word := power large

theorem convRoot_pow (i : Nat) : convRoot ^ i = power (large * i) := power_pow large i

theorem root_eq (i : Nat) : root i = convRoot ^ i := by
  rw [root, pow_two_eq, convRoot_pow]

theorem convRoot_primitive : IsPrimitiveRoot convRoot conv := by
  refine .mk_of_lt convRoot (by decide) ?_ fun i positive below => ?_
  · rw [convRoot_pow]
    exact Gf.power_order
  · intro one
    rw [convRoot_pow, ← power_zero] at one
    have small : large * i < 2 ^ 16 - 1 := by
      have bound : i < 255 := below
      simp only [large]
      omega
    have zero := power_injOn (w := 16) small (by decide) one
    simp only [large] at zero
    omega

/-- The root that a transform in the given direction uses. -/
def twiddle (inverse : Bool) : Word := if inverse then convRoot⁻¹ else convRoot

theorem twiddle_pow_conv : twiddle inverse ^ conv = 1 := by
  cases inverse
  · exact convRoot_primitive.pow_eq_one
  · rw [twiddle, if_pos rfl, inv_pow, convRoot_primitive.pow_eq_one, inv_one]

theorem radixMatrix_eq (radix k n : Nat) :
    radixMatrix inverse radix k n = twiddle inverse ^ (radixWeight radix * k * n) := by
  rw [← pow_eq_pow_of_modEq (mod_modEq _ conv) (twiddle_pow_conv inverse), radixMatrix, root_eq]
  have below : radixWeight radix * k * n % conv < conv := mod_lt _ (by decide)
  generalize radixWeight radix * k * n % conv = exponent at below
  cases inverse with
  | false => simp [twiddle]
  | true =>
    by_cases zero : exponent = 0
    · simp [zero]
    · rw [if_pos ⟨rfl, zero⟩, twiddle, if_pos rfl, inv_pow]
      apply eq_inv_of_mul_eq_one_left
      rw [← pow_add, Nat.sub_add_cancel below.le, convRoot_primitive.pow_eq_one]

theorem radixWeight_three : radixWeight 3 = 85 := by decide

theorem radixWeight_five : radixWeight 5 = 51 := by decide

theorem radixWeight_seventeen : radixWeight 17 = 120 := by decide

theorem naturalIndex_eq (three five seventeen : Nat) :
    naturalIndex three five seventeen = (85 * three + 51 * five + 120 * seventeen) % 255 := by
  rw [naturalIndex, radixWeight_three, radixWeight_five, radixWeight_seventeen]
  rfl

theorem naturalIndex_residues {i : Nat} (inside : i < conv) : naturalIndex (i % 3) (i % 5) (i % 17) = i := by
  have bound : i < 255 := inside
  rw [naturalIndex_eq]
  omega

theorem residues_naturalIndex {three five seventeen : Nat} (h3 : three < 3) (h5 : five < 5) (h17 : seventeen < 17) :
    naturalIndex three five seventeen % 3 = three ∧ naturalIndex three five seventeen % 5 = five ∧
      naturalIndex three five seventeen % 17 = seventeen := by
  rw [naturalIndex_eq]
  omega

/-- The three radices multiply to the whole transform with no factor between them. -/
theorem twiddle_split (three five seventeen m : Nat) :
    twiddle inverse ^ (85 * three * (m % 3)) * (twiddle inverse ^ (51 * five * (m % 5)) *
      twiddle inverse ^ (120 * seventeen * (m % 17))) = twiddle inverse ^ (naturalIndex three five seventeen * m) := by
  have unity := twiddle_pow_conv inverse
  rw [RootSums.pow_mul_mod unity (by decide), RootSums.pow_mul_mod unity (by decide),
    RootSums.pow_mul_mod unity (by decide), ← pow_add, ← pow_add]
  apply pow_eq_pow_of_modEq _ unity
  rw [naturalIndex_eq, ← add_assoc, ← add_mul, ← add_mul]
  exact (mod_modEq _ 255).symm.mul_right m

theorem radix17Forward_apply (syndromes : Nat → Region words) (firstRow live : Nat) (matrix : Nat → Nat → Word)
    (dst : Nat → Region words) {three five k : Nat} (inside : three < 3 ∧ five < 5 ∧ k < 17) :
    radix17Forward syndromes firstRow live matrix dst (splitIndex three five k) =
      ∑ row ∈ Finset.range live,
        if row % 3 = three ∧ row % 5 = five then matrix k (row % 17) • syndromes (firstRow + row) else 0 := by
  refine (write_grid splitIndex (fun three five k => fold 0 (((range live).filter
    fun row => row % 3 = three ∧ row % 5 = five).map fun row => (matrix k (row % 17), syndromes (firstRow + row))))
    dst inside ?_).trans ?_
  · intro i j l bound equal
    simp only [splitIndex] at equal
    omega
  · rw [fold_eq, zero_add, map_map]
    exact sum_map_filter_range _ _ live

section
variable (src : Nat → Region words) (matrix : Nat → Nat → Word) (dst : Nat → Region words) {k five seventeen : Nat}
include src matrix dst

theorem radix5_apply {three : Nat} (inside : three < 3 ∧ seventeen < 17 ∧ k < 5) :
    radix5 src matrix dst (splitIndex three k seventeen) =
      ∑ five ∈ Finset.range 5, matrix k five • src (splitIndex three five seventeen) := by
  refine (write_grid (fun three seventeen k => splitIndex three k seventeen) (fun three seventeen k =>
    fold 0 ((range 5).map fun five => (matrix k five, src (splitIndex three five seventeen))))
    dst inside ?_).trans (fold_range 5 _ _)
  intro i j l bound equal
  simp only [splitIndex] at equal
  omega

theorem radix3ToNatural_apply (inside : five < 5 ∧ seventeen < 17 ∧ k < 3) :
    radix3ToNatural src matrix dst (naturalIndex k five seventeen) =
      ∑ three ∈ Finset.range 3, matrix k three • src (splitIndex three five seventeen) := by
  refine (write_grid (fun five seventeen k => naturalIndex k five seventeen) (fun five seventeen k =>
    fold 0 ((range 3).map fun three => (matrix k three, src (splitIndex three five seventeen))))
    dst inside ?_).trans (fold_range 3 _ _)
  intro i j l bound equal
  have left := residues_naturalIndex bound.2.2 bound.1 bound.2.1
  have right := residues_naturalIndex inside.2.2 inside.1 inside.2.1
  rw [equal] at left
  omega

theorem radix3FromNatural_apply (inside : five < 5 ∧ seventeen < 17 ∧ k < 3) :
    radix3FromNatural src matrix dst (splitIndex k five seventeen) =
      ∑ three ∈ Finset.range 3, matrix k three • src (naturalIndex three five seventeen) := by
  refine (write_grid (fun five seventeen k => splitIndex k five seventeen) (fun five seventeen k =>
    fold 0 ((range 3).map fun three => (matrix k three, src (naturalIndex three five seventeen))))
    dst inside ?_).trans (fold_range 3 _ _)
  intro i j l bound equal
  simp only [splitIndex] at equal
  omega

end

section
variable (src : Nat → Region words) (start live : Nat) (matrix : Nat → Nat → Word) (dst : Nat → Region words)
include src start live matrix dst

theorem radix17Inverse_apply {t : Nat} (inside : t < live) :
    radix17Inverse src start live matrix dst (start + t) =
      ∑ n ∈ Finset.range 17, matrix ((conv - 1 - t) % 17) n •
        src (splitIndex ((conv - 1 - t) % 3) ((conv - 1 - t) % 5) n) := by
  refine (write_map (fun t => start + t) _ dst (mem_range.mpr inside) ?_).trans (fold_range 17 _ _)
  intro other _ equal
  rw [add_left_cancel equal]

theorem radix17Inverse_other {slot : Nat} (outside : slot < start) :
    radix17Inverse src start live matrix dst slot = dst slot := by
  refine write_of_not_mem ?_ dst
  intro cell member
  obtain ⟨t, _, rfl⟩ := mem_map.mp member
  exact (Nat.lt_add_right t outside).ne'

end

/-- The pruned forward transform of one segment. -/
theorem forward_eq (syndromes first second dst : Nat → Region words) (start live : Nat) {point : Nat}
    (inside : point < conv) :
    radix3ToNatural (radix5 (radix17Forward syndromes start live (radixMatrix false 17) first)
        (radixMatrix false 5) second) (radixMatrix false 3) dst point =
      ∑ row ∈ Finset.range live, convRoot ^ (point * row) • syndromes (start + row) := by
  have h3 : point % 3 < 3 := mod_lt _ (by decide)
  have h5 : point % 5 < 5 := mod_lt _ (by decide)
  have h17 : point % 17 < 17 := mod_lt _ (by decide)
  conv_lhs => rw [← naturalIndex_residues inside]
  rw [radix3ToNatural_apply _ _ _ ⟨h5, h17, h3⟩, Finset.sum_congr rfl fun three member => by
    rw [radix5_apply _ _ _ ⟨Finset.mem_range.mp member, h17, h5⟩, Finset.sum_congr rfl fun five listed => by
      rw [radix17Forward_apply _ _ _ _ _ ⟨Finset.mem_range.mp member, Finset.mem_range.mp listed, h17⟩]]]
  simp only [Finset.smul_sum, smul_ite, smul_zero, smul_smul]
  rw [sum_classes _ live (fun row => mod_lt row (by decide)) fun row => mod_lt row (by decide)]
  refine Finset.sum_congr rfl fun row _ => ?_
  rw [radixMatrix_eq, radixMatrix_eq, radixMatrix_eq, radixWeight_three, radixWeight_five, radixWeight_seventeen,
    twiddle_split, naturalIndex_residues inside]
  rfl

/-- The points of the transform by their three residues. -/
theorem sum_naturalIndex (term : Nat → Region words) :
    ∑ seventeen ∈ Finset.range 17, ∑ five ∈ Finset.range 5, ∑ three ∈ Finset.range 3,
      term (naturalIndex three five seventeen) = ∑ point ∈ Finset.range conv, term point := by
  refine sum_reindex term (fun seventeen five three => naturalIndex three five _) (· % 17) (· % 5)
    (· % 3) ?_ ?_
  · intro seventeen five three h17 h5 h3
    have residues := residues_naturalIndex h3 h5 h17
    exact ⟨mod_lt _ (by decide), residues.2.2, residues.2.1, residues.1⟩
  · intro point inside
    exact ⟨mod_lt _ (by decide), mod_lt _ (by decide), mod_lt _ (by decide),
      naturalIndex_residues inside⟩

/-- The inverse transform at the rows of one output segment. -/
theorem inverse_eq (accumulator first second dst : Nat → Region words) (start live : Nat) {t : Nat} (inside : t < live) :
    radix17Inverse (radix5 (radix3FromNatural accumulator (radixMatrix true 3) first) (radixMatrix true 5) second)
        start live (radixMatrix true 17) dst (start + t) =
      ∑ point ∈ Finset.range conv, convRoot⁻¹ ^ (point * (conv - 1 - t)) • accumulator point := by
  have h3 : (conv - 1 - t) % 3 < 3 := mod_lt _ (by decide)
  have h5 : (conv - 1 - t) % 5 < 5 := mod_lt _ (by decide)
  rw [radix17Inverse_apply _ _ _ _ _ inside, Finset.sum_congr rfl fun seventeen member => by
    rw [radix5_apply _ _ _ ⟨h3, Finset.mem_range.mp member, h5⟩, Finset.sum_congr rfl fun five listed => by
      rw [radix3FromNatural_apply _ _ _ ⟨Finset.mem_range.mp listed, Finset.mem_range.mp member, h3⟩]], ← sum_naturalIndex]
  simp only [Finset.smul_sum, smul_smul]
  refine Finset.sum_congr rfl fun seventeen _ => Finset.sum_congr rfl fun five _ =>
    Finset.sum_congr rfl fun three _ => ?_
  have split := twiddle_split true three five seventeen (conv - 1 - t)
  rw [radixMatrix_eq, radixMatrix_eq, radixMatrix_eq, radixWeight_three, radixWeight_five, radixWeight_seventeen]
  rw [twiddle, if_pos rfl] at split ⊢
  rw [← split]
  congr 1
  rw [mul_right_comm 85, mul_right_comm 51, mul_right_comm 120]
  ring

section Correlation
variable {locator : Nat → Word} {rows : Nat}

theorem kernelEntry_eq (monic : ∀ j, rows < j → locator j = 0) (s point : Nat) :
    kernelEntry locator rows s point =
      ∑ w ∈ Finset.range conv, locator (s * block + 2 * block - 1 - w) * convRoot ^ (point * w) := by
  have whole (index : Nat) : (if index < rows + 1 then locator index else 0) = locator index := by
    split
    · rfl
    · exact (monic index (by omega)).symm
  rw [kernelEntry, foldl_ext _ (fun slot w => slot + locator (s * block + 2 * block - 1 - w) * convRoot ^ (point * w)),
    foldl_add, zero_add, sum_map_range]
  intro slot w _
  simp only [whole, Gf.mul_eq, root_eq]
  rw [pow_eq_pow_of_modEq (mod_modEq (point * w) conv) convRoot_primitive.pow_eq_one]
  split_ifs with zero
  · rw [zero, zero_mul, add_zero]
  · rfl

theorem conv_cast : ((conv : Nat) : Word) = 1 := by
  rw [CharTwo.natCast_eq_mod]
  exact cast_one

/-- The rows of one segment that exist. -/
abbrev liveRows (rows segment : Nat) : Nat := min block (rows - segment * block)

/-- The first `count` segments are transformed. -/
def Transformed (syndromes : Nat → Region words) (rows count : Nat) (scratch : Scratch words) : Prop :=
  ∀ segment < count, ∀ point < conv, scratch.spectra segment point =
    ∑ row ∈ Finset.range (liveRows rows segment), convRoot ^ (point * row) • syndromes (segment * block + row)

/-- Row `t` of the correlation of the syndromes with the locator. -/
def correlationRow (locator : Nat → Word) (syndromes : Nat → Region words) (rows t : Nat) : Region words :=
  ∑ r ∈ Finset.range rows, locator (r + t + 1) • syndromes r

/-- The first `count` rows of the correlation are in the scratch buffer. -/
def Correlated (locator : Nat → Word) (syndromes : Nat → Region words) (rows count : Nat)
    (scratch : Scratch words) : Prop :=
  ∀ t < count, scratch.correlation t = correlationRow locator syndromes rows t

variable {syndromes : Nat → Region words} {scratch : Scratch words} {count : Nat}

theorem transformSegment_transformed (done : Transformed syndromes rows count scratch) :
    Transformed syndromes rows (count + 1)
      ((ConvolutionPlan.build locator rows).transformSegment rows syndromes scratch count) := by
  intro segment inside point bound
  rcases Nat.lt_succ_iff_lt_or_eq.mp inside with earlier | rfl
  · refine Eq.trans ?_ (done segment earlier point bound)
    exact congrFun (Function.update_of_ne earlier.ne _ _) point
  · refine (congrFun (Function.update_self _ _ _) point).trans ?_
    exact forward_eq _ _ _ _ _ _ bound

theorem transformSegments_transformed (locator : Nat → Word) (syndromes : Nat → Region words) (scratch : Scratch words)
    (count : Nat) : Transformed syndromes rows count
      ((range count).foldl ((ConvolutionPlan.build locator rows).transformSegment rows syndromes) scratch) := by
  induction count with
  | zero =>
    intro segment inside
    exact absurd inside (not_lt_zero segment)
  | succ count ih =>
    rw [range_succ, foldl_append]
    exact transformSegment_transformed ih

/-- The input segments that an output segment pairs with hold every term of its rows: the
locator has no coefficient past them. -/
theorem sum_pairs (monic : ∀ j, rows < j → locator j = 0) (syndromes : Nat → Region words) {segments segment t : Nat}
    (cover : rows ≤ segments * block) (start : segment * block ≤ t) :
    ∑ input ∈ Finset.range (segments - segment), ∑ row ∈ Finset.range (liveRows rows input),
        locator (input * block + row + t + 1) • syndromes (input * block + row) =
      correlationRow locator syndromes rows t := by
  have blocks := sum_blocks (fun r => locator (r + t + 1) • syndromes r) rows block (segments - segment)
  rw [blocks, correlationRow]
  refine Finset.sum_subset ?_ ?_
  · intro r member
    simp only [Finset.mem_range] at member ⊢
    omega
  · intro r member outside
    simp only [Finset.mem_range, Nat.sub_mul] at member outside
    rw [monic _ (by omega), zero_smul]

section
variable (monic : ∀ j, rows < j → locator j = 0)
  (done : Transformed syndromes rows (ConvolutionPlan.build locator rows).segments scratch)
include monic done

theorem outputSegment_row {segment t : Nat}
    (inside : segment < (ConvolutionPlan.build locator rows).segments) (live : t < liveRows rows segment) :
    ((ConvolutionPlan.build locator rows).outputSegment rows scratch segment).correlation (segment * block + t) =
      correlationRow locator syndromes rows (segment * block + t) := by
  have short : t < 128 := lt_of_lt_of_le live (min_le_left _ _)
  have cover : rows ≤ (ConvolutionPlan.build locator rows).segments * block := by
    simp only [ConvolutionPlan.build, block]
    omega
  refine (inverse_eq _ _ _ _ _ _ live).trans ?_
  have point (k : Nat) (bound : k ∈ Finset.range conv) :
      write ((range conv).map fun point => (point, fold 0 ((range
          ((ConvolutionPlan.build locator rows).segments - segment)).map fun input =>
          ((ConvolutionPlan.build locator rows).kernel (segment + input) point, scratch.spectra input point))))
        scratch.accumulator k =
      ∑ input ∈ Finset.range ((ConvolutionPlan.build locator rows).segments - segment),
        (∑ w ∈ Finset.range conv, locator ((segment + input) * block + 2 * block - 1 - w) * convRoot ^ (k * w)) •
          ∑ row ∈ Finset.range (liveRows rows input), convRoot ^ (k * row) • syndromes (input * block + row) := by
    rw [write_range _ _ (Finset.mem_range.mp bound), fold_range]
    refine Finset.sum_congr rfl fun input member => ?_
    have known : input < (ConvolutionPlan.build locator rows).segments := by
      have bound := Finset.mem_range.mp member
      omega
    rw [done input known k (Finset.mem_range.mp bound), ← kernelEntry_eq monic, ConvolutionPlan.build]
  rw [Finset.sum_congr rfl fun k bound => congrArg _ (point k bound), ← sum_pairs monic _ cover (le_add_right _ _)]
  simp only [Finset.smul_sum (s := Finset.range (ConvolutionPlan.segments _ - segment))]
  rw [Finset.sum_comm]
  refine Finset.sum_congr rfl fun input _ => ?_
  have window : liveRows rows input ≤ conv - 1 - t + 1 := by
    have bound : liveRows rows input ≤ 128 := min_le_left _ _
    simp only [conv, block]
    omega
  rw [RootSums.sum_spectra_window convRoot_primitive conv_cast _ _ (by simp only [conv, block]; omega) window]
  refine Finset.sum_congr rfl fun row member => ?_
  have bound : row < 128 := lt_of_lt_of_le (Finset.mem_range.mp member) (min_le_left _ _)
  congr 2
  simp only [conv, block]
  omega

theorem outputSegment_correlated (inside : count < (ConvolutionPlan.build locator rows).segments)
    (correlated : Correlated locator syndromes rows (min (count * block) rows) scratch) :
    Correlated locator syndromes rows (min ((count + 1) * block) rows)
      ((ConvolutionPlan.build locator rows).outputSegment rows scratch count) := by
  intro t bound
  rw [succ_mul] at bound
  rcases lt_or_ge t (count * block) with earlier | later
  · refine (radix17Inverse_other _ _ _ _ _ earlier).trans (correlated t ?_)
    omega
  · obtain ⟨offset, rfl⟩ := Nat.exists_eq_add_of_le later
    exact outputSegment_row monic done inside (by rw [liveRows]; omega)

theorem outputSegments_correlated (inside : count ≤ (ConvolutionPlan.build locator rows).segments) :
    let run := (range count).foldl ((ConvolutionPlan.build locator rows).outputSegment rows) scratch
    Transformed syndromes rows (ConvolutionPlan.build locator rows).segments run ∧
      Correlated locator syndromes rows (min (count * block) rows) run := by
  induction count with
  | zero =>
    refine ⟨done, fun t bound => ?_⟩
    simp at bound
  | succ count ih =>
    obtain ⟨kept, correlated⟩ := ih (by omega)
    rw [range_succ, foldl_append]
    exact ⟨kept, outputSegment_correlated monic kept (by omega) correlated⟩

end

/-- The blocked convolution computes every row of the correlation, whatever the scratch
buffer held. -/
theorem convolution_correlate (monic : ∀ j, rows < j → locator j = 0) (syndromes : Nat → Region words)
    (scratch : Scratch words) :
    Correlated locator syndromes rows rows ((ConvolutionPlan.build locator rows).correlate rows syndromes scratch) := by
  have cover : min ((ConvolutionPlan.build locator rows).segments * block) rows = rows := by
    simp only [ConvolutionPlan.build, block]
    omega
  have run := (outputSegments_correlated monic (transformSegments_transformed locator syndromes scratch _) le_rfl).2
  rwa [cover] at run

/-- So does the correlation written out. -/
theorem direct_correlate (plan : ConsecutiveSolvePlan) (monic : ∀ j, plan.rows < j → plan.locator j = 0)
    (syndromes : Nat → Region words) (scratch : Scratch words) :
    Correlated plan.locator syndromes plan.rows plan.rows (plan.correlate syndromes scratch) := by
  intro t inside
  refine (write_range _ _ inside).trans ((fold_range _ _ _).trans ?_)
  rw [correlationRow, ← Finset.sum_subset (Finset.range_mono (sub_le plan.rows t))]
  · refine Finset.sum_congr rfl fun r _ => ?_
    rw [add_right_comm, add_comm t]
  · intro r _ outside
    rw [Finset.mem_range] at outside
    rw [monic _ (by omega), zero_smul]

end Correlation
end VandermondeSolve
end Rarpar

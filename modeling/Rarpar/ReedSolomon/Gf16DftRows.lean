import Rarpar.Algebra.Accumulate
import Rarpar.Algebra.RootSums
import Rarpar.ReedSolomon.Gf16DftPlan

namespace Rarpar
open GfSymbol Buffer GfSimd List Nat Accumulate
open Finset (sum_congr)

namespace Gf16Dft
variable {words : Nat} {slots : List Nat} {start stop bucketBatch : Nat} {plan : DftPlan}

section Sums

theorem mulAccInputBatch_filter_range (n : Nat) (keep : Nat → Prop) [DecidablePred keep] (factor : Nat → Word)
    (source : Nat → Region words) :
    mulAccInputBatch 0 (((range n).filter fun i => keep i).map fun i => (factor i, source i)) =
      ∑ i ∈ Finset.range n, if keep i then factor i • source i else 0 := by
  rw [mulAccInputBatch_eq, zero_add, map_map]
  exact sum_map_filter_range _ keep n

/-- The sources of one line, weighted for one output of the length-17 leaf. -/
def lineSum (slots : List Nat) (sources : Nat → Region words) (v line g17 : Nat) : Region words :=
  ∑ i ∈ Finset.range slots.length, if cellOf (logOf slots i) = v * plane + line then
    rootTable logW17 g17 (logOf slots i % 17) • sources i else 0

/-- The sources of one bucket, weighted for one exponent. -/
def bucketTerm (slots : List Nat) (sources : Nat → Region words) (v exponent : Nat) : Region words :=
  ∑ i ∈ Finset.range slots.length, if logOf slots i % 257 = v then
    (power (logOf slots i) : Word) ^ exponent • sources i else 0

section
variable {v line : Nat} (planned : Planned slots start stop bucketBatch plan) (sources : Nat → Region words)
  (hv : v < 257) (hline : line < plane) (g17 : Nat)
include planned sources hv hline g17

theorem Planned.line_sum :
    ((range' (plan.cellStart (v * plane + line))
        (plan.cellStart (v * plane + line + 1) - plan.cellStart (v * plane + line))).map fun entry =>
          plan.tab17 g17 (plan.srcU17 entry) • sources (plan.srcIndex entry)).sum =
      lineSum slots sources v line g17 := by
  have cell := congrArg (map fun entry : Nat × Nat => rootTable logW17 g17 entry.2 • sources entry.1)
    (planned.cell v hv line hline)
  rw [map_map, map_map] at cell
  rw [planned.tab17]
  refine (congrArg sum cell).trans ?_
  exact sum_map_filter_range _ _ _

theorem Planned.line_sum_of_empty
    (empty : ¬ plan.cellStart (v * plane + line) < plan.cellStart (v * plane + line + 1)) :
    lineSum slots sources v line g17 = 0 := by
  rw [← planned.line_sum sources hv hline g17, Nat.sub_eq_zero_of_le (not_lt.mp empty)]
  rfl

end

end Sums

section Bucket
variable (planned : Planned slots start stop bucketBatch plan) {bucket : Nat} (live : bucket < plan.liveBuckets.length)
  (sources result stage : Nat → Region words)
include planned live

theorem Planned.line_live_iff {line : Nat} (hline : line < plane) :
    plan.liveLines.getD bucket 0 &&& 1 <<< line ≠ 0 ↔
      plan.cellStart (plan.liveBuckets.getD bucket 0 * plane + line) <
        plan.cellStart (plan.liveBuckets.getD bucket 0 * plane + line + 1) := by
  rw [and_shiftLeft_ne_zero, (planned.live bucket live).2.1, lineMask_testBit]
  exact and_iff_right hline

theorem Planned.scatterLines_apply {line rank g17 : Nat} (hline : line < plane)
    (present : plan.liveLines.getD bucket 0 &&& 1 <<< line ≠ 0) (ranked : plan.needG17[rank]? = some g17) :
    plan.scatterLines (plan.liveLines.getD bucket 0) (plan.liveBuckets.getD bucket 0 * plane) sources result
        (rank * plane + line) = lineSum slots sources (plan.liveBuckets.getD bucket 0) line g17 := by
  refine (write_of_mem (mem_flatMap.mpr ⟨line, mem_filter.mpr ⟨mem_range.mpr hline, decide_eq_true present⟩,
    mem_map.mpr ⟨(g17, rank), mem_zipIdx_iff_getElem?.mpr ranked, rfl⟩⟩) ?_ _).trans ?_
  · intro cell member equal
    obtain ⟨other, listed, member⟩ := mem_flatMap.mp member
    obtain ⟨⟨g, r⟩, known, rfl⟩ := mem_map.mp member
    have bound := mem_range.mp (mem_filter.mp listed).1
    simp only [plane] at bound hline equal
    obtain rfl : other = line := by omega
    obtain rfl : r = rank := by omega
    cases Option.some.inj ((mem_zipIdx_iff_getElem?.mp known).symm.trans ranked)
    rfl
  · rw [mulAccBatches_eq, zero_add, map_map]
    exact planned.line_sum sources (planned.live bucket live).1 hline g17

theorem Planned.foldFives_apply {rank g5 pairAt u3 g17 : Nat} (h3 : u3 < 3)
    (present : plan.liveLines.getD bucket 0 &&& lineMaskForU3 u3 ≠ 0) (ranked : plan.needG17[rank]? = some g17)
    (paired : plan.needPairs[pairAt]? = some (rank, g5)) :
    plan.foldFives (plan.liveLines.getD bucket 0) (plan.scatterLines (plan.liveLines.getD bucket 0)
        (plan.liveBuckets.getD bucket 0 * plane) sources result) stage (pairAt * 3 + u3) =
      ∑ u5 ∈ Finset.range 5, rootTable logW5 g5 u5 •
        lineSum slots sources (plan.liveBuckets.getD bucket 0) (u5 * 3 + u3) g17 := by
  refine (write_of_mem (mem_flatMap.mpr ⟨((rank, g5), pairAt), mem_zipIdx_iff_getElem?.mpr paired,
    mem_map.mpr ⟨u3, mem_filter.mpr ⟨mem_range.mpr h3, decide_eq_true present⟩, rfl⟩⟩) ?_ _).trans ?_
  · intro cell member equal
    obtain ⟨⟨⟨r, g⟩, index⟩, known, member⟩ := mem_flatMap.mp member
    obtain ⟨other, listed, rfl⟩ := mem_map.mp member
    have bound := mem_range.mp (mem_filter.mp listed).1
    obtain rfl : other = u3 := by omega
    obtain rfl : index = pairAt := by omega
    cases Option.some.inj ((mem_zipIdx_iff_getElem?.mp known).symm.trans paired)
    rfl
  · rw [mulAccInputBatch_filter_range, planned.tab5]
    refine sum_congr rfl fun u5 member => ?_
    have hline : u5 * 3 + u3 < plane := by
      have bound := Finset.mem_range.mp member
      simp only [plane]
      omega
    split_ifs with filled
    · rw [add_assoc, planned.scatterLines_apply live sources result hline filled ranked]
    · rw [planned.line_live_iff live hline] at filled
      rw [planned.line_sum_of_empty sources (planned.live bucket live).1 hline g17 filled, smul_zero]

theorem Planned.foldThrees_apply {rank g5 g3 g17 : Nat} (listed : (rank, g5, g3) ∈ plan.needTriples)
    (ranked : plan.needG17[rank]? = some g17)
    (paired : plan.needPairs[plan.pairRank (pairCode (rank, g5))]? = some (rank, g5)) :
    (plan.bucketTransform bucket sources result stage).1 (rowOf (rank, g5, g3)) =
      ∑ u3 ∈ Finset.range 3, rootTable logW3 g3 u3 • ∑ u5 ∈ Finset.range 5, rootTable logW5 g5 u5 •
        lineSum slots sources (plan.liveBuckets.getD bucket 0) (u5 * 3 + u3) g17 := by
  refine (write_map rowOf _ _ listed ?_).trans ?_
  · intro other known equal
    have bound := planned.triple other known
    have bounds := planned.triple _ listed
    simp only [rowOf, plane] at equal bounds
    obtain ⟨r, g, h⟩ := other
    simp only at equal bound
    obtain rfl : r = rank := by omega
    obtain rfl : g = g5 := by omega
    obtain rfl : h = g3 := by omega
    rfl
  · rw [mulAccInputBatch_filter_range, planned.tab3]
    refine sum_congr rfl fun u3 member => ?_
    have h3 := Finset.mem_range.mp member
    split_ifs with present
    · rw [planned.foldFives_apply live sources result stage h3 present ranked paired]
    · -- No line of this residue is live, so each of its sums is empty.
      have zero : ∀ u5 ∈ Finset.range 5, rootTable logW5 g5 u5 •
          lineSum slots sources (plan.liveBuckets.getD bucket 0) (u5 * 3 + u3) g17 = 0 := by
        intro u5 known
        have h5 := Finset.mem_range.mp known
        have hline : u5 * 3 + u3 < plane := by
          simp only [plane]
          omega
        rw [planned.line_sum_of_empty sources (planned.live bucket live).1 hline, smul_zero]
        intro filled
        have bit := (planned.line_live_iff live hline).mpr filled
        rw [and_shiftLeft_ne_zero] at bit
        exact present (testBit_of_lineMaskForU3 h3 h5 bit)
      rw [Finset.sum_eq_zero zero, smul_zero]

end Bucket

section Exponents

theorem power_one_order : (power 1 : Word) ^ Gf.order = 1 := by
  rw [← power_eq_pow]
  exact Gf.power_order

theorem rootTable_eq (logRoot f k : Nat) : rootTable logRoot f k = power 1 ^ (logRoot * f * k) := by
  rw [rootTable, Gf.powFromLog_eq, power_eq_pow, ← pow_mul, mul_assoc]

/-- The four coordinates of an exponent recombine. -/
theorem coordinates_modEq (exponent : Nat) :
    logW257 * qOf exponent + (logW3 * (pOf exponent % 3) + (logW5 * (pOf exponent % 5) + logW17 * g17Of (pOf exponent)))
      ≡ exponent [MOD Gf.order] := by
  have point : 85 * (pOf exponent % 3) + 51 * (pOf exponent % 5) + 15 * g17Of (pOf exponent) ≡
      128 * exponent [MOD 255] := by
    have reduced : pOf exponent ≡ 128 * exponent [MOD 255] :=
      (mod_modEq _ _).trans ((mod_modEq _ 255).mul_left 128)
    refine Nat.ModEq.trans ?_ reduced
    unfold Nat.ModEq g17Of
    omega
  have bucket : qOf exponent ≡ 128 * exponent [MOD 257] :=
    (mod_modEq _ _).trans ((mod_modEq _ 257).mul_left 128)
  have whole := RootSums.recombine (by decide : 257 * 128 + 255 * 128 ≡ 1 [MOD 255 * 257]) point bucket
  refine Eq.trans (congrArg (· % Gf.order) ?_) whole
  simp only [logW257, logW3, logW5, logW17]
  omega

/-- The stages multiply to the whole transform with no factor between them. -/
theorem coordinates_mul (log exponent : Nat) :
    rootTable logW257 (qOf exponent) (log % 257) * (rootTable logW3 (pOf exponent % 3) (log % 3) *
      (rootTable logW5 (pOf exponent % 5) (log % 5) * rootTable logW17 (g17Of (pOf exponent)) (log % 17))) =
      power log ^ exponent := by
  rw [rootTable_eq, rootTable_eq, rootTable_eq, rootTable_eq, RootSums.pow_mul_mod power_one_order (by decide),
    RootSums.pow_mul_mod power_one_order (by decide), RootSums.pow_mul_mod power_one_order (by decide),
    RootSums.pow_mul_mod power_one_order (by decide), ← pow_add, ← pow_add, ← pow_add, power_eq_pow log,
    ← pow_mul]
  refine pow_eq_pow_of_modEq ?_ power_one_order
  rw [← add_mul, ← add_mul, ← add_mul, mul_comm log]
  exact (coordinates_modEq _).mul_right log

end Exponents

theorem cellOf_eq_iff {log v u3 u5 : Nat} (h3 : u3 < 3) (h5 : u5 < 5) :
    cellOf log = v * plane + (u5 * 3 + u3) ↔ (log % 3 = u3 ∧ log % 5 = u5) ∧ log % 257 = v := by
  have bound3 : log % 3 < 3 := mod_lt _ (by decide)
  have bound5 : log % 5 < 5 := mod_lt _ (by decide)
  simp only [cellOf, plane]
  generalize log % 3 = residue3, log % 5 = residue5, log % 257 = bucket at *
  omega

/-- A finished bucket contributes its sources at each wanted exponent. -/
theorem Planned.bucketTransform_row (planned : Planned slots start stop bucketBatch plan) {bucket out : Nat}
    (live : bucket < plan.liveBuckets.length) (inside : out < stop - start) (sources result stage : Nat → Region words) :
    plan.accumulateFactor bucket out • (plan.bucketTransform bucket sources result stage).1 (plan.outRow.getD out 0) =
      bucketTerm slots sources (plan.liveBuckets.getD bucket 0) (start + out) := by
  obtain ⟨rank, row, listed, ranked, paired⟩ := planned.row out inside
  have factor : plan.accumulateFactor bucket out =
      rootTable logW257 (qOf (start + out)) (plan.liveBuckets.getD bucket 0) := by
    rw [DftPlan.accumulateFactor, planned.outQ out inside, rootTable]
  rw [row, planned.foldThrees_apply live sources result stage listed ranked paired, factor]
  rw [sum_congr rfl fun u3 h3 => by rw [sum_congr rfl fun u5 h5 => by rw [lineSum, sum_congr rfl fun i _ => by
    rw [if_congr (cellOf_eq_iff (Finset.mem_range.mp h3) (Finset.mem_range.mp h5)) rfl rfl, ite_and]]]]
  simp only [Finset.smul_sum, smul_ite, smul_zero, smul_smul]
  rw [sum_classes _ _ (fun i => mod_lt _ (by decide)) fun i => mod_lt _ (by decide), bucketTerm]
  refine sum_congr rfl fun i _ => ?_
  split_ifs with same
  · rw [← same, coordinates_mul]
  · rfl

/-- Every source lies in exactly one live bucket. -/
theorem Planned.sum_bucketTerm (planned : Planned slots start stop bucketBatch plan) (sources : Nat → Region words)
    (exponent : Nat) :
    ∑ bucket ∈ Finset.range plan.liveBuckets.length, bucketTerm slots sources (plan.liveBuckets.getD bucket 0) exponent =
      ∑ i ∈ Finset.range slots.length, (power (logOf slots i) : Word) ^ exponent • sources i := by
  have listed : (range plan.liveBuckets.length).map (fun bucket => plan.liveBuckets.getD bucket 0) =
      plan.liveBuckets := ext_getElem (by simp) fun i _ inside => by simp [inside]
  rw [← sum_map_range, ← Function.comp_def (fun v => bucketTerm slots sources v _), ← map_map,
    listed, ← sum_toFinset _ planned.nodup]
  simp only [bucketTerm]
  rw [Finset.sum_comm]
  refine sum_congr rfl fun i member => ?_
  have covered := planned.covers i (Finset.mem_range.mp member)
  rw [Finset.sum_ite_eq, if_pos (mem_toFinset.mpr covered)]

end Gf16Dft
end Rarpar

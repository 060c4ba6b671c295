import Rarpar.Par2.RepairRows
import Rarpar.ReedSolomon.DecodeApply
import Rarpar.ReedSolomon.Gf16DftStripe
import Rarpar.ReedSolomon.VandermondeRestore

namespace Rarpar
open Gf16Dft VandermondeSolve DecodeApply GfSymbol Matrix
open List hiding Vector

namespace Par2
variable {words : Nat}

/-- Why a band is not repaired. -/
inductive Halt where
  | transform (error : TransformError)
  | solve (error : SolveError)
  | diverged

inductive StripeSolver where
  | denseInverse (inverse : RowMatrix)
  | consecutive (plan : ConsecutiveSolvePlan)

def solveBatch : Nat := 16

/-- Folds the rows with nonzero factors into `dst`. -/
def denseRow {n : Nat} (factors : Fin n → Word) (rows : Fin n → Region words) (dst : Region words) : Region words :=
  accumulateBatches solveBatch ((finRange n).map fun j => (factors j, rows j)) [] dst

def StripeSolver.solveStripe (solver : StripeSolver) (syndromes : Nat → Region words) (rowOffsets : List Nat)
    (scratch : Scratch words) : Except Halt (List (Region words)) :=
  match solver with
  | .denseInverse inverse =>
    .ok <| ofFn fun row => denseRow (inverse.data row) (fun column => syndromes (rowOffsets.getD column 0)) 0
  | .consecutive plan =>
    (plan.solveStripe ((range plan.rows).map syndromes) { scratch with len := plan.scratchBytes (2 * words) }
      fun _ => false).mapError .solve

/-- A band of one stripe: the recovery rows go to their positions in the range of the
transform, which adds the present slices; the solver turns the syndromes into the missing
slices. One row of each step is checked against the direct sum. `missing` and `present` are
the constants of the slices, and `stale` is what the worker's buffers hold. -/
def repairBand {m n : Nat} (missing : Fin m → Word) (present : Fin n → Word) (recoveryExponents : List Nat)
    (dft : DftPlan) (solver : StripeSolver) (lowest probe : Nat) (staging : Fin n → Region words)
    (output : List (Region words)) (stale : DftScratch words × Scratch words) : Except Halt (List (Region words)) :=
  let positions := recoveryExponents.map (· - lowest)
  let placed := (range dft.outputCount).map (Buffer.write (positions.zip output) fun _ => 0)
  let scratch := { stale.1 with stripeLen := 2 * words, len := dft.scratchBytes (2 * words) }
  match dft.transformStripe (ofFn staging) placed scratch fun _ => false with
  | (.error error, _) => .error (.transform error)
  | (.ok (), syndromes) => do
    let repaired ← solver.solveStripe (fun row => syndromes.getD row 0) positions stale.2
    let seen := syndromes.getD (positions.getD probe 0) 0
    let exponent := recoveryExponents.getD probe 0
    if denseRow (fun j => Gf.pow (present j) exponent) staging (output.getD probe 0) ≠ seen then .error .diverged
    else if denseRow (fun j => Gf.pow (missing j) exponent) (fun j => repaired.getD j 0) seen ≠ 0 then .error .diverged
    else return repaired

theorem denseRow_eq {n : Nat} (factors : Fin n → Word) (rows : Fin n → Region words) (dst : Region words) :
    denseRow factors rows dst = dst + ∑ j, factors j • rows j := by
  rw [denseRow, accumulateBatches_eq, List.map_map, ← List.sum_ofFn, List.ofFn_eq_map]
  simp [Function.comp_def]

section Solve
variable {lost exponents : List Nat} {lowest : Nat} {x : Fin lost.length → Region words}
  {syndromes : Nat → Region words} {scratch : Scratch words}

theorem Inverts.solveStripe_eq {decode : RowMatrix} (inverts : Inverts (lost.map power) exponents decode)
    (count : exponents.length = lost.length)
    (rows : ∀ e ∈ exponents, syndromes (e - lowest) = syndromeRow lost x e) :
    (StripeSolver.denseInverse decode).solveStripe syndromes (exponents.map (· - lowest)) scratch = .ok (ofFn x) := by
  obtain ⟨D, rfl, inverse⟩ := inverts
  rw [StripeSolver.solveStripe]
  refine congrArg _ ((ofFn_congr count _).trans (congrArg _ (funext fun j => ?_)))
  rw [denseRow_eq, zero_add]
  calc
    _ = ∑ r, D (j.cast count.symm) r • ∑ m, recoveryMatrix (lost.map power) exponents r m • x (m.cast count) := by
      refine Finset.sum_congr rfl fun r _ => congrArg _ ?_
      rw [getD_eq_getElem _ _ (by simp), getElem_map, rows _ (getElem_mem _), syndromeRow, ← Fin.sum_congr' _ count]
      have known (m : Fin exponents.length) : (m : Nat) < lost.length := m.isLt.trans_eq count
      simp [recoveryMatrix, constantOf, known]
    _ = ∑ m, (D * recoveryMatrix _ exponents) (j.cast count.symm) m • x (m.cast count) := by
      simp only [mul_apply, Finset.sum_smul, Finset.smul_sum, smul_smul]
      exact Finset.sum_comm
    _ = x j := by
      rw [inverse]
      simp [one_apply]

theorem consecutive_solveStripe {offsets : List Nat} {first : Nat} {plan : ConsecutiveSolvePlan}
    (prepared : Prepared lost first plan) (below : ∀ log ∈ lost, log < Gf.order) (distinct : lost.Nodup)
    (rows : ∀ r < lost.length, syndromes r = syndromeRow lost x (first + r)) :
    (StripeSolver.consecutive plan).solveStripe syndromes offsets scratch = .ok (ofFn x) := by
  have window : (range plan.rows).map syndromes = (range lost.length).map fun r => syndromeRow lost x (first + r) := by
    rw [prepared.rows]
    exact map_congr_left fun r member => rows r (mem_range.mp member)
  rw [StripeSolver.solveStripe, window, prepared.solveStripe_eq below distinct x le_rfl fun _ _ => rfl]
  rfl

end Solve

section Band
variable {lost kept exponents : List Nat} {decode : RowMatrix} {lowest highest : Nat} {dft : DftPlan}
  (within : ∀ e ∈ exponents, lowest ≤ e ∧ e ≤ highest)
include within

theorem repairBand_eq {probe : Nat} {solver : StripeSolver} {x : Fin lost.length → Region words}
    {y : Fin kept.length → Region words} {stale : DftScratch words × Scratch words}
    (planned : Planned kept lowest (highest + 1) defaultBucketBatch dft) (some : kept ≠ [])
    (probed : probe < exponents.length)
    (solves : ∀ syndromes : Nat → Region words, (∀ e ∈ exponents, syndromes (e - lowest) = syndromeRow lost x e) →
      solver.solveStripe syndromes (exponents.map (· - lowest)) stale.2 = .ok (ofFn x)) :
    repairBand (constantOf lost) (constantOf kept) exponents dft solver lowest probe y
      (exponents.map fun e => syndromeRow lost x e + syndromeRow kept y e) stale = .ok (ofFn x) := by
  -- Adding is exclusive or, so what the transform adds to a recovery row cancels there.
  have twice (row : Region words) : row + row = 0 := neg_add_cancel row
  have direct (e : Nat) : directRow kept (ofFn y) e = syndromeRow kept y e := by
    simp [directRow, Finset.sum_range, syndromeRow, constantOf]
  have powers {logs : List Nat} (z : Fin logs.length → Region words) (e : Nat) (dst : Region words) :
      denseRow (fun j => Gf.pow (constantOf logs j) e) z dst = dst + syndromeRow logs z e := by
    simp only [denseRow_eq, Gf.pow_eq, syndromeRow]
  unfold repairBand
  simp only [zip_map']
  rw [transformStripe_eq planned (by decide) length_ofFn (by simp [planned.outputCount]) rfl rfl fun _ => rfl,
    if_neg (by simp [some])]
  generalize filled : mapIdx _ _ = syndromes
  have syndrome (e : Nat) (member : e ∈ exponents) : syndromes.getD (e - lowest) 0 = syndromeRow lost x e := by
    have bounds := within e member
    have placed := Buffer.write_map (· - lowest) (fun e => syndromeRow lost x e + syndromeRow kept y e) (fun _ => 0)
      member fun f listed same => by
        have other := within f listed
        rw [show f = e by omega]
    have position : e - lowest < dft.outputCount := by
      rw [planned.outputCount]
      omega
    simp [← filled, position, placed, direct, Nat.add_sub_cancel' bounds.1, add_assoc, twice]
  have seen := syndrome _ (getElem_mem probed)
  have back : (fun j : Fin lost.length => (ofFn x).getD j 0) = x := by simp
  simp only [solves (fun row => syndromes.getD row 0) syndrome, bind, Except.bind, getD_eq_getElem, length_map, probed,
    getElem_map, powers, seen, back]
  rw [if_neg (by rw [add_assoc, twice, add_zero]; exact not_not.mpr rfl), if_neg (by rw [twice]; exact not_not.mpr rfl)]
  rfl

/-- The recovery rows and the present slices give the missing slices back, by the inverse
or by the closed form for a full run of exponents, whatever the buffers held, and neither
check stops the band. -/
theorem repairBand_restores (inside : highest < Gf.order) (inverts : Inverts (lost.map power) exponents decode)
    (count : exponents.length = lost.length) (below : ∀ log ∈ lost, log < Gf.order) (distinct : lost.Nodup)
    (some : kept ≠ []) :
    ∃ dft, build kept lowest (highest + 1) = .ok dft ∧ ∀ solver, (solver = .denseInverse decode ∨
        highest - lowest + 1 = lost.length ∧ ∃ plan, buildForExponents lost exponents = .ok (.ok plan) ∧
          solver = .consecutive plan) →
      ∀ (words probe : Nat) (x : Fin lost.length → Region words) (y : Fin kept.length → Region words)
        (stale : DftScratch words × Scratch words), probe < exponents.length →
          repairBand (constantOf lost) (constantOf kept) exponents dft solver lowest probe y
            (exponents.map fun e => syndromeRow lost x e + syndromeRow kept y e) stale = .ok (ofFn x) := by
  obtain ⟨dft, built, planned⟩ := @buildTuned_planned kept lowest _ defaultBucketBatch inside (by decide) (by decide)
  refine ⟨dft, built, fun solver chosen words probe x y stale probed => ?_⟩
  refine repairBand_eq within planned some probed fun syndromes rows => ?_
  rcases chosen with rfl | ⟨full, plan, solved, rfl⟩
  · exact inverts.solveStripe_eq count rows
  · have nonempty : lost ≠ [] := ne_nil_of_length_pos (by omega)
    have width : ∀ e ∈ exponents, e < 2 ^ 32 := fun e member =>
      (within e member).2.trans_lt (inside.trans (by decide))
    rw [buildForExponents_eq nonempty width] at solved
    split at solved
    · rename_i run
      -- A run as long as the range starts where the range does.
      generalize exponents.headD 0 = first at run solved
      have listed (r : Nat) (known : r < lost.length) : first + r ∈ exponents := by
        rw [run]
        exact mem_range'_1.mpr (by omega)
      have start : first = lowest := by
        have least := within _ (listed 0 (by omega))
        have most := within _ (listed (lost.length - 1) (by omega))
        omega
      obtain ⟨_, same, prepared⟩ := buildWithStrategy_prepared below distinct first .auto
      cases same.symm.trans solved
      refine consecutive_solveStripe prepared below distinct fun r known => ?_
      have row := rows _ (listed r known)
      rwa [← start, Nat.add_sub_cancel_left] at row
    · cases solved

end Band

/-- One lost slice, from the plain parity of two. -/
theorem repairBand_restores_single : ∃ dft, build [2] 0 1 = .ok dft ∧ ∀ (x y : Region 1) (stale),
    repairBand (constantOf [1]) (constantOf [2]) [0] dft (.denseInverse ⟨1, 1, fun _ _ => 1⟩) 0 0 (fun _ => y)
      [syndromeRow [1] (fun _ => x) 0 + syndromeRow [2] (fun _ => y) 0] stale = .ok [x] := by
  have within : ∀ e ∈ [0], 0 ≤ e ∧ e ≤ 0 := by decide
  have inverts : Inverts ([1].map power) [0] ⟨1, 1, fun _ _ => 1⟩ := ⟨_, rfl, by decide +kernel⟩
  obtain ⟨dft, built, restores⟩ := repairBand_restores within (by decide) inverts rfl (by decide) (by decide)
    (cons_ne_nil 2 [])
  exact ⟨dft, built, fun x y stale => restores _ (.inl rfl) 1 0 (fun _ => x) (fun _ => y) stale (by decide)⟩

end Par2
end Rarpar

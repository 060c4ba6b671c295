import Rarpar.Data.Fallible
import Rarpar.ReedSolomon.VandermondeEvaluate

namespace Rarpar
open GfSymbol Polynomial List Lagrange

namespace VandermondeSolve
variable {words : Nat} {logs : List Nat}

/-- The constant of unknown `c`. -/
def constantOf (logs : List Nat) (c : Fin logs.length) : Word := power (logs.get c)

theorem locatorOf_eq_nodal (logs : List Nat) :
    locatorOf (logs.map power) = nodal Finset.univ (constantOf logs) := by
  rw [nodal, locatorOf, ← prod_ofFn, map_map]
  exact congrArg prod (ext_getElem (by simp) (by simp [constantOf]))

/-- What a built plan holds. -/
structure Prepared (logs : List Nat) (firstExponent : Nat) (plan : ConsecutiveSolvePlan) : Prop where
  rows : plan.rows = logs.length
  locator : plan.locator = (Lagrange.nodal Finset.univ (constantOf logs)).coeff
  constants : plan.constants = logs.map power
  scale : plan.scale = (logs.map power).map fun g =>
    ((Lagrange.nodal Finset.univ (constantOf logs)).derivative.eval g)⁻¹ * (g ^ firstExponent)⁻¹
  convolution : plan.convolution = none ∨ plan.convolution = some (.build plan.locator plan.rows)
  grouped : plan.grouped = none ∨ plan.grouped = some (.build logs)

section
variable (below : ∀ log ∈ logs, log < Gf.order) (distinct : logs.Nodup)
include below distinct

theorem collectMissing_eq {seen : List Nat} (fresh : ∀ log ∈ logs, log ∉ seen) :
    collectMissing seen logs = .ok (logs.map power) := by
  induction logs generalizing seen with
  | nil => rfl
  | cons log rest ih =>
    obtain ⟨apart, distinct⟩ := nodup_cons.mp distinct
    obtain ⟨inside, below⟩ := forall_mem_cons.mp below
    obtain ⟨new, fresh⟩ := forall_mem_cons.mp fresh
    have rest_fresh : ∀ other ∈ rest, other ∉ log :: seen := by
      intro other member
      rw [mem_cons, not_or]
      exact ⟨ne_of_mem_of_not_mem member apart, fresh other member⟩
    rw [collectMissing, if_neg (not_or.mpr ⟨not_le.mpr inside, new⟩), ih below distinct rest_fresh, Gf.powFromLog_eq,
      ← power_eq_pow]
    rfl

theorem constantOf_injective : Function.Injective (constantOf logs) := by
  intro c d same
  have equal := power_injOn (w := 16) (below _ (logs.get_mem c)) (below _ (logs.get_mem d)) same
  exact distinct.injective_get equal

theorem scaleFactor_eq (firstExponent : Nat) {g : Word} (member : g ∈ logs.map power) :
    scaleFactor (nodal Finset.univ (constantOf logs)).coeff logs.length firstExponent g =
      .ok (((nodal Finset.univ (constantOf logs)).derivative.eval g)⁻¹ * (g ^ firstExponent)⁻¹) := by
  obtain ⟨log, listed, rfl⟩ := mem_map.mp member
  obtain ⟨c, rfl⟩ := mem_iff_get.mp listed
  have simple := PowerSums.nodal_derivative_ne_zero (constantOf_injective below distinct) c
  have nonzero : (power (logs.get c) : Word) ^ firstExponent ≠ 0 := pow_ne_zero _ (power_ne_zero _)
  have degree : (nodal Finset.univ (constantOf logs)).natDegree ≤ logs.length := by
    rw [natDegree_nodal, Finset.card_univ, Fintype.card_fin]
  rw [scaleFactor, evaluateDerivative_eq degree, Gf.pow_eq, Gf.inv_eq nonzero]
  rw [constantOf] at simple
  rw [Gf.inv_eq simple]
  exact congrArg Except.ok (Gf.mul_eq _ _)

/-- Distinct logs in range always build, under every strategy. -/
theorem buildWithStrategy_prepared (firstExponent : Nat) (strategy : SolveStrategy) :
    ∃ plan, buildWithStrategy logs firstExponent strategy = .ok (.ok plan) ∧ Prepared logs firstExponent plan := by
  have fits : ¬ Gf.order < logs.length := by
    have inside : logs ⊆ range Gf.order := fun log member => mem_range.mpr (below log member)
    have count := (subperm_of_subset distinct inside).length_le
    rw [length_range] at count
    exact not_lt.mpr count
  unfold buildWithStrategy
  rw [if_neg fits, collectMissing_eq below distinct fun _ _ => not_mem_nil]
  simp only [locatorPolynomial_eq, locatorOf_eq_nodal]
  rw [mapM_ok fun g member => scaleFactor_eq below distinct _ member]
  exact ⟨_, rfl, rfl, rfl, rfl, rfl, (ite_eq_or_eq _ _ _).symm, (ite_eq_or_eq _ _ _).symm⟩

end

section Solve
variable {firstExponent : Nat} {plan : ConsecutiveSolvePlan}

theorem Prepared.monic (prepared : Prepared logs firstExponent plan) (j : Nat) (above : plan.rows < j) :
    plan.locator j = 0 := by
  rw [prepared.locator]
  apply coeff_eq_zero_of_natDegree_lt
  rwa [natDegree_nodal, Finset.card_univ, Fintype.card_fin, ← prepared.rows]

/-- The row of syndromes at one recovery exponent. -/
def syndromeRow (logs : List Nat) (x : Fin logs.length → Region words) (exponent : Nat) : Region words :=
  ∑ c, constantOf logs c ^ exponent • x c

theorem map_range_eq_ofFn {α : Type*} {m n : Nat} {f : Nat → α} {x : Fin n → α} (length : m = n)
    (same : ∀ c : Fin n, f c = x c) : (List.range m).map f = List.ofFn x := by
  subst length
  refine ext_getElem (by simp) fun i _ inside => ?_
  rw [List.getElem_map, List.getElem_range, List.getElem_ofFn]
  exact same ⟨i, by simpa using inside⟩

section
variable (prepared : Prepared logs firstExponent plan)
include prepared

theorem Prepared.correlated (syndromes : Nat → Region words)
    (scratch : Scratch words) :
    Correlated plan.locator syndromes plan.rows plan.rows (match plan.convolution with
      | some convolution => convolution.correlate plan.rows syndromes scratch
      | none => plan.correlate syndromes scratch) := by
  rcases prepared.convolution with direct | blocked
  · rw [direct]
    exact direct_correlate plan prepared.monic _ scratch
  · rw [blocked]
    exact convolution_correlate prepared.monic _ scratch

theorem Prepared.evaluated (correlation rows buckets : Nat → Region words)
    {c : Nat} (inside : c < plan.rows) :
    (match plan.grouped with
      | some grouped => (grouped.groups.foldl (plan.evaluateGrouped grouped correlation) (rows, buckets)).1
      | none => plan.evaluateDirect correlation rows) c = evaluation plan correlation c := by
  rcases prepared.grouped with direct | shared
  · rw [direct]
    exact evaluateDirect_apply _ rows inside
  · rw [shared]
    exact grouped_apply prepared.constants _ (rows, buckets) (prepared.rows ▸ inside)

/-- Stage 2 on the correlation of the syndromes isolates one unknown. -/
theorem Prepared.value (below : ∀ log ∈ logs, log < Gf.order)
    (distinct : logs.Nodup) (x : Fin logs.length → Region words) {correlation syndromes : Nat → Region words}
    (rows : ∀ r < plan.rows, syndromes r = syndromeRow logs x (firstExponent + r))
    (correlated : ∀ t < plan.rows, correlation t = correlationRow plan.locator syndromes plan.rows t)
    (c : Fin logs.length) : evaluation plan correlation c = x c := by
  have constant : plan.constants.getD c 0 = constantOf logs c := by
    rw [prepared.constants]
    simp [constantOf]
  have scale : plan.scale.getD c 0 = ((nodal Finset.univ (constantOf logs)).derivative.eval
      (constantOf logs c))⁻¹ * (constantOf logs c ^ firstExponent)⁻¹ := by
    rw [prepared.scale]
    simp [constantOf]
  have isolated := PowerSums.sum_quotient_smul (constantOf logs) (fun d => constantOf logs d ^ firstExponent • x d) c
  refine Eq.trans ?_ ((congrArg (plan.scale.getD c 0 • ·) isolated).trans ?_)
  · rw [evaluation, Finset.smul_sum, constant, prepared.rows]
    refine Finset.sum_congr rfl fun t member => ?_
    have inside : t < plan.rows := prepared.rows ▸ Finset.mem_range.mp member
    rw [correlated t inside, correlationRow, smul_smul, prepared.locator, prepared.rows]
    refine congrArg (_ • ·) (Finset.sum_congr rfl fun r listed => ?_)
    rw [rows r (prepared.rows ▸ Finset.mem_range.mp listed), syndromeRow]
    simp only [smul_smul, ← pow_add, Nat.add_comm r]
  · have simple := PowerSums.nodal_derivative_ne_zero (constantOf_injective below distinct) c
    have nonzero : constantOf logs c ^ firstExponent ≠ 0 := pow_ne_zero _ (power_ne_zero _)
    rw [scale, ← smul_smul, smul_comm _ _ (_ • x c), inv_smul_smul₀ nonzero, inv_smul_smul₀ simple]

theorem Prepared.solveStripe_eq (below : ∀ log ∈ logs, log < Gf.order)
    (distinct : logs.Nodup) (x : Fin logs.length → Region words) {scratch : Scratch words} {cancelled : Nat → Bool}
    (room : plan.scratchBytes (2 * words) ≤ scratch.len) (quiet : ∀ k < plan.polls, cancelled k = false) :
    plan.solveStripe ((range logs.length).map fun r => syndromeRow logs x (firstExponent + r)) scratch cancelled =
      .ok (ofFn x) := by
  have fits : ¬ (((range logs.length).map fun r => syndromeRow logs x (firstExponent + r)).length * (2 * words) ≠
      plan.rows * (2 * words) ∨ scratch.len < plan.scratchBytes (2 * words)) := by
    rw [length_map, length_range, prepared.rows, not_or, not_not]
    exact ⟨rfl, not_lt.mpr room⟩
  have polled : ¬ (range plan.polls).any cancelled = true := by simpa using quiet
  unfold ConsecutiveSolvePlan.solveStripe
  rw [if_neg fits]
  by_cases empty : plan.rows = 0 ∨ 2 * words = 0
  · -- No rows, or rows of no bytes: there is only one list of that shape.
    rw [if_pos empty]
    refine congrArg Except.ok (map_range_eq_ofFn rfl fun c => ?_)
    rcases empty with none | short
    · have inside : (c : Nat) < plan.rows := c.isLt.trans_eq prepared.rows.symm
      omega
    · obtain rfl : words = 0 := by omega
      exact Region.ext (funext fun i => i.elim0)
  · rw [if_neg empty, if_neg polled]
    refine congrArg Except.ok (map_range_eq_ofFn prepared.rows fun c => ?_)
    have inside := c.isLt.trans_eq prepared.rows.symm
    refine (prepared.evaluated _ _ _ inside).trans (prepared.value below distinct x ?_ (prepared.correlated _ scratch) c)
    intro r known
    rw [prepared.rows] at known
    rw [getD_eq_getElem _ _ (by simpa using known), getElem_map, getElem_range]

end

end Solve

section Exponents

theorem checkedAdd_eq_some {first step exponent : Nat} (width : exponent < 2 ^ 32) :
    checkedAdd first step = some exponent ↔ exponent = first + step := by
  unfold checkedAdd
  split
  · rw [Option.some_inj, eq_comm]
  · simp only [reduceCtorEq, false_iff]
    omega

/-- The exponent check passes on the runs that ascend by one from the first exponent. -/
theorem any_checkedAdd_iff {exponents : List Nat} (width : ∀ e ∈ exponents, e < 2 ^ 32) (first : Nat) :
    ¬ (exponents.zipIdx.any fun entry => checkedAdd first entry.2 != some entry.1) = true ↔
      exponents = range' first exponents.length := by
  simp only [any_eq_true, Prod.exists, mem_zipIdx_iff_getElem?, bne_iff_ne, not_exists, not_and, not_not]
  rw [forall_comm]
  refine (forall₃_congr fun i e at_i => checkedAdd_eq_some (width e (mem_of_getElem? at_i))).trans ?_
  constructor
  · intro steps
    refine ext_getElem (by simp) fun i inside _ => ?_
    rw [getElem_range'_1]
    exact steps i _ (getElem?_eq_getElem inside)
  · intro run i e at_i
    rw [run, List.getElem?_range' (by simpa using (List.getElem?_eq_some_iff.mp at_i).1), Option.some_inj] at at_i
    omega

/-- A list of exponents is accepted exactly if it is a run, and then it builds the plan of
its first exponent. -/
theorem buildForExponents_eq (positive : logs ≠ []) {exponents : List Nat} (width : ∀ e ∈ exponents, e < 2 ^ 32) :
    buildForExponents logs exponents =
      if exponents = range' (exponents.headD 0) logs.length then build logs (exponents.headD 0)
      else .ok (.error (if exponents.length ≠ logs.length then .geometry else .nonConsecutive)) := by
  unfold buildForExponents
  by_cases length : exponents.length ≠ logs.length
  · have other : exponents ≠ range' (exponents.headD 0) logs.length := by
      intro run
      exact length (by rw [run, length_range'])
    rw [if_pos length, if_neg other, if_pos length]
  · rw [if_neg length, if_neg length]
    rw [not_not] at length
    cases exponents with
    | nil => exact absurd (length_eq_zero_iff.mp length.symm) positive
    | cons first rest =>
      have passes := any_checkedAdd_iff width first
      rw [length] at passes
      by_cases run : first :: rest = range' first logs.length
      · rw [headD_cons, if_pos run]
        exact if_neg (passes.mpr run)
      · rw [headD_cons, if_neg run]
        exact if_pos (not_not.mp (mt passes.mp run))

end Exponents

/-- Every system on distinct constants and consecutive exponents is solved: under each
strategy a plan is built, and on the syndromes of any rows it writes those rows back,
whatever the scratch buffer held. The lists of exponents accepted are the ascending runs. -/
theorem solveStripe_recovers (logs : List Nat) (positive : logs ≠ []) (below : ∀ log ∈ logs, log < Gf.order)
    (distinct : logs.Nodup) :
    (∀ (firstExponent : Nat) (strategy : SolveStrategy), ∃ plan,
      buildWithStrategy logs firstExponent strategy = .ok (.ok plan) ∧
        ∀ (words : Nat) (x : Fin logs.length → Region words) (scratch : Scratch words) (cancelled : Nat → Bool),
          plan.scratchBytes (2 * words) ≤ scratch.len → (∀ k < plan.polls, cancelled k = false) →
            plan.solveStripe ((range logs.length).map fun r =>
              ∑ c, (power (logs.get c) : Word) ^ (firstExponent + r) • x c) scratch cancelled = .ok (ofFn x)) ∧
      ∀ exponents : List Nat, (∀ e ∈ exponents, e < 2 ^ 32) →
        ((∃ plan, buildForExponents logs exponents = .ok (.ok plan)) ↔
          ∃ first, exponents = range' first logs.length) ∧
        ∀ first, exponents = range' first logs.length →
          buildForExponents logs exponents = buildWithStrategy logs first .auto := by
  refine ⟨fun firstExponent strategy => ?_, fun exponents width => ?_⟩
  · obtain ⟨plan, built, prepared⟩ := buildWithStrategy_prepared below distinct _ _
    exact ⟨plan, built, fun words x scratch cancelled room quiet => prepared.solveStripe_eq below distinct x room quiet⟩
  · have accepted : ∀ first, exponents = range' first logs.length →
        buildForExponents logs exponents = buildWithStrategy logs first .auto := by
      rintro first rfl
      obtain ⟨log, rest, rfl⟩ := exists_cons_of_ne_nil positive
      have head : (range' first (log :: rest).length).headD 0 = first := rfl
      rw [buildForExponents_eq positive width, head, if_pos rfl, build]
    refine ⟨⟨?_, ?_⟩, accepted⟩
    · rintro ⟨plan, built⟩
      rw [buildForExponents_eq positive width] at built
      split at built
      · rename_i run
        exact ⟨_, run⟩
      · cases built
    · rintro ⟨first, run⟩
      obtain ⟨plan, built, _⟩ := buildWithStrategy_prepared below distinct first .auto
      exact ⟨plan, (accepted first run).trans built⟩

/-- Two unknowns of one word each, through the blocked and grouped stages. -/
theorem solveStripe_recovers_pair :
    (∃ plan, buildWithStrategy [4, 1] 7 .transformed = .ok (.ok plan) ∧
      plan.solveStripe ((range 2).map fun r =>
        ∑ c : Fin 2, (power ([4, 1].get c) : Word) ^ (7 + r) • (⟨fun _ _ => 5⟩ : Region 1))
        ⟨plan.scratchBytes 2, 0, 0, 0, 0, 0, 0⟩ (fun _ => false) = .ok [⟨fun _ _ => 5⟩, ⟨fun _ _ => 5⟩]) ∧
      ∃ plan, buildForExponents [4, 1] [7, 8] = .ok (.ok plan) := by
  have solves := solveStripe_recovers [4, 1] (by decide) (by decide) (by decide)
  obtain ⟨plan, built, recovers⟩ := solves.1 7 .transformed
  refine ⟨⟨plan, built, ?_⟩, ?_⟩
  · exact recovers 1 (fun _ => ⟨fun _ _ => 5⟩) ⟨plan.scratchBytes 2, 0, 0, 0, 0, 0, 0⟩ (fun _ => false) le_rfl
      fun _ _ => rfl
  · exact (solves.2 [7, 8] (by decide)).1.mpr ⟨7, rfl⟩

end VandermondeSolve
end Rarpar

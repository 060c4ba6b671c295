import Rarpar.Par2.Repair

namespace Rarpar
open Matrix Elimination GreedyRows
open List hiding Vector

namespace Par2

/-- The given recovery rows on the first missing columns. -/
def recoveryMatrix (base : List Word) (rows : List Nat) : Matrix (Fin rows.length) (Fin rows.length) Word :=
  Matrix.of fun i j => base.getD j 0 ^ rows.get i

/-- The rows are independent on the first missing columns. -/
def RegularRows (base : List Word) (rows : List Nat) : Prop := (recoveryMatrix base rows).det ≠ 0

instance (base : List Word) : DecidablePred (RegularRows base) := fun rows =>
  inferInstanceAs (Decidable ((recoveryMatrix base rows).det ≠ 0))

section Select
variable {valid : Nat → Bool} {build : List Nat → Except DecodeMatrixError (RowMatrix × RowMatrix)} {count : Nat}
  {regular : List Nat → Prop} [DecidablePred regular]

variable {candidates : List Nat}

theorem filter_eraseIdx_of_invalid (skip : Fin candidates.length)
    (invalid : valid (candidates.get skip) = false) :
    (candidates.eraseIdx skip).filter valid = candidates.filter valid := by
  rw [eraseIdx_eq_take_drop_succ, filter_append]
  conv_rhs =>
    rw [← take_append_drop skip candidates, filter_append, drop_eq_getElem_cons skip.isLt,
      filter_cons_of_neg (by simpa using invalid)]

theorem corruptSelection_some {skip : Fin candidates.length}
    (found : corruptSelection valid count candidates = some skip) : valid (candidates.get skip) = false := by
  have holds := find?_some found
  rw [Bool.and_eq_true, Bool.not_eq_true'] at holds
  exact holds.2

theorem corruptSelection_none (clean : corruptSelection valid count candidates = none) :
    (candidates.take count).filter valid = candidates.take count := by
  rw [filter_eq_self]
  intro row member
  obtain ⟨p, inside, rfl⟩ := mem_iff_getElem.mp member
  rw [length_take, Nat.lt_min] at inside
  have absent := find?_eq_none.mp clean ⟨p, inside.2⟩ (mem_finRange _)
  rw [getElem_take]
  simpa [inside.1] using absent

theorem skipCandidate_of_badRow {error : DecodeMatrixError} {row : Nat} (room : row < count)
    (inside : row < candidates.length) (named : error.badRow = some row) :
    skipCandidate build count candidates error = some ⟨row, inside⟩ := by
  simp [skipCandidate, named, room, inside]

/-- What the loop needs to know of the matrix builder: it accepts rows with regular
prefixes, and otherwise names the first row that breaks them. -/
def BlamesFirstRow (regular : List Nat → Prop) (count : Nat)
    (build : List Nat → Except DecodeMatrixError (RowMatrix × RowMatrix)) : Prop :=
  ∀ selected : List Nat, selected.length = count →
    (∃ result, build selected = .ok result ∧ ∀ k < count, regular (selected.take (k + 1))) ∨
      ∃ error row, build selected = .error error ∧ error.badRow = some row ∧ row < count ∧
        (∀ k < row, regular (selected.take (k + 1))) ∧ ¬ regular (selected.take (row + 1))

/-- Dropping a selected row commutes with the filter, since the selected rows pass it. -/
theorem filter_eraseIdx_of_clean {row : Nat} (room : row < count)
    (clean : (candidates.take count).filter valid = candidates.take count) (enough : count ≤ candidates.length) :
    (candidates.eraseIdx row).filter valid = (candidates.filter valid).eraseIdx row := by
  have size : row < (candidates.take count).length := by rwa [length_take_of_le enough]
  have all : ∀ x ∈ (candidates.take count).eraseIdx row, valid x = true := fun x member =>
    filter_eq_self.mp clean x (mem_of_mem_eraseIdx member)
  conv_lhs => rw [← take_append_drop count candidates, eraseIdx_append_of_lt_length size, filter_append]
  conv_rhs =>
    rw [← take_append_drop count candidates, filter_append, clean, eraseIdx_append_of_lt_length size]
  rw [filter_eq_self.mpr all]

/-- The loop selects the greedy rows of the blocks with a valid hash, or reports that
they are too few. -/
theorem selectRows_spec (blames : BlamesFirstRow regular count build) (candidates : List Nat) :
    let rows := greedy regular count (candidates.filter valid)
    (rows.length = count ∧ ∃ result, build rows = .ok result ∧
        selectRows valid build count candidates = .ok (.ok (rows, result))) ∨
      rows.length < count ∧ ∃ available, selectRows valid build count candidates =
        .ok (.error (.insufficientRecoveryData count available (count - available))) := by
  induction size : candidates.length using Nat.strongRecOn generalizing candidates with
  | ind _ ih =>
    have shorter (skip : Fin candidates.length) : (candidates.eraseIdx skip).length < candidates.length := by
      grind
    have retry (skip : Fin candidates.length) := ih _ (size ▸ shorter skip) (candidates.eraseIdx skip) rfl
    unfold selectRows
    by_cases few : (candidates.take count).length < count
    · refine Or.inr ⟨?_, _, if_pos few⟩
      rw [length_take] at few
      have kept := length_filter_le valid candidates
      have taken := @greedy_length_le_length regular _ count (candidates.filter valid)
      omega
    · rw [if_neg few]
      rw [length_take] at few
      have enough : count ≤ candidates.length := by omega
      cases corrupt : corruptSelection valid count candidates with
      | some skip =>
        rw [← filter_eraseIdx_of_invalid skip (corruptSelection_some corrupt)]
        exact retry skip
      | none =>
        have clean := corruptSelection_none corrupt
        have head (k : Nat) (le : k ≤ count) : (candidates.filter valid).take k = (candidates.take count).take k := by
          conv_lhs => rw [← take_append_drop count candidates, filter_append, clean]
          rw [take_append_of_le_length]
          rwa [length_take_of_le enough]
        have long : count ≤ (candidates.filter valid).length := by
          grind
        rcases blames _ (length_take_of_le enough) with
          ⟨result, built, prefixes⟩ | ⟨error, row, failed, named, room, prefixes, singular⟩
        · have rows : greedy regular count (candidates.filter valid) = candidates.take count := by
            rw [greedy_of_regular_take long, head count le_rfl, take_take, Nat.min_self]
            intro k inside
            rw [head (k + 1) inside]
            exact prefixes k inside
          simp only [rows, built]
          exact Or.inl ⟨length_take_of_le enough, result, rfl, rfl⟩
        · have inside : row < candidates.length := room.trans_le enough
          simp only [failed, skipCandidate_of_badRow room inside named]
          have same : greedy regular count ((candidates.eraseIdx row).filter valid) =
              greedy regular count (candidates.filter valid) := by
            rw [filter_eraseIdx_of_clean room clean enough]
            refine greedy_eraseIdx (room.trans_le long) room ?_ ?_
            · grind
            · rwa [head (row + 1) room]
          rw [← same]
          exact retry ⟨row, inside⟩

end Select

section Build
variable {constants : List Word} {available missing : List (Fin constants.length)} {selected : List Nat}

/-- The constants of the missing slices. -/
def baseOf (constants : List Word) (missing : List (Fin constants.length)) : List Word := missing.map constants.get

theorem vandermonde_eq (exponent : Fin missing.length → Nat) :
    vandermonde constants missing exponent =
      of fun i j : Fin missing.length => (baseOf constants missing).getD j 0 ^ exponent i := by
  funext i j
  have entry : (baseOf constants missing).getD j 0 = constants.get (missing.get j) := by simp [baseOf]
  rw [vandermonde, of_apply, of_apply, entry]

theorem leadingRegular_iff_regularRows (same : selected.length = missing.length) {k : Nat}
    (bound : k ≤ missing.length) :
    LeadingRegular (vandermonde constants missing fun i => selected.get (Fin.cast same.symm i)) k ↔
      RegularRows (baseOf constants missing) (selected.take k) := by
  have size : (selected.take k).length = k := length_take_of_le (by omega)
  have block : (recoveryMatrix (baseOf constants missing) _).submatrix (finCongr size.symm)
      (finCongr size.symm) =
      (vandermonde _ missing fun i => selected.get (Fin.cast same.symm i)).submatrix (Fin.castLE bound)
        (Fin.castLE bound) := by
    funext i j
    rw [vandermonde_eq]
    simp [recoveryMatrix]
  rw [leadingRegular_iff_det bound, ← block, det_submatrix_equiv_self, RegularRows]

theorem blamesFirstRow_core (tiledEnvEnabled : Bool) :
    BlamesFirstRow (RegularRows (baseOf constants missing)) missing.length fun selected =>
      buildRepairMatrixCore constants available missing selected none tiledEnvEnabled := by
  intro selected same
  rcases buildRepairMatrixCore_spec available same none tiledEnvEnabled with
    ⟨X, built, regular, solution⟩ | ⟨col, failed, regular, singular⟩
  · refine Or.inl ⟨_, built, fun k inside => ?_⟩
    exact (leadingRegular_iff_regularRows same inside).mp (regular (k + 1) inside)
  · refine Or.inr ⟨_, col, failed, rfl, col.isLt, fun k before => ?_, ?_⟩
    · exact (leadingRegular_iff_regularRows same (by omega)).mp (regular (k + 1) before)
    · rwa [← leadingRegular_iff_regularRows same col.isLt]

/-- The decode matrix inverts the selected rows. -/
def Inverts (base : List Word) (rows : List Nat) (decode : RowMatrix) : Prop :=
  ∃ D : Matrix (Fin rows.length) (Fin rows.length) Word, decode = ⟨_, _, D⟩ ∧ D * recoveryMatrix base rows = 1

theorem inverts_of_solution {base : List Word} {rows : List Nat} {n : Nat} (same : rows.length = n)
    {D : Matrix (Fin n) (Fin n) Word}
    (inverse : (of fun i j : Fin n => base.getD j 0 ^ rows.get (Fin.cast same.symm i)) * D = 1) :
    Inverts base rows ⟨n, n, D⟩ := by
  subst same
  exact ⟨D, rfl, mul_eq_one_comm.mp inverse⟩

theorem buildRepairMatrixCore_inverts {tiledEnvEnabled : Bool} {inputFactors decode : RowMatrix}
    (same : selected.length = missing.length)
    (built : buildRepairMatrixCore constants available missing selected none tiledEnvEnabled =
      .ok (inputFactors, decode)) : Inverts (baseOf constants missing) selected decode := by
  rcases buildRepairMatrixCore_spec available same none tiledEnvEnabled with
    ⟨X, done, regular, solution⟩ | ⟨col, failed, regular, singular⟩
  · obtain ⟨-, rfl⟩ := Prod.mk.inj (Except.ok.inj (built.symm.trans done))
    refine inverts_of_solution same ?_
    rw [← vandermonde_eq]
    funext i j
    have entry := congrFun (congrFun solution i) (Fin.natAdd available.length j)
    rw [sources, of_apply, Fin.addCases_right] at entry
    exact entry
  · cases built.symm.trans failed

end Build

section Plan
variable {set : Par2FileSet} {total : Nat}

/-- All slices of the recovery set in the global order. -/
def inputSlices (set : Par2FileSet) : List (FileId × Nat) := set.recoveryFileIds.flatMap (fileSlices set)

theorem addFileSlices_eq (slices : List (FileId × Nat)) {fileId : FileId}
    (small : (fileSlices set fileId).length ≤ maxSlicesPerFile) :
    addFileSlices set slices fileId = .ok (slices ++ fileSlices set fileId) := by
  unfold addFileSlices
  cases described : set.files.lookup fileId with
  | none =>
    grind [fileSlices]
  | some description =>
    rw [fileSlices, described, length_map, length_range] at small
    exact if_neg (not_lt.mpr small)

theorem globalToFile_eq (bound : (inputSlices set).length ≤ maxTotalInputSlices) :
    globalToFile set = .ok (inputSlices set) := by
  have run (ids : List FileId) (front : List (FileId × Nat))
      (small : ∀ id ∈ ids, (fileSlices set id).length ≤ maxSlicesPerFile) :
      ids.foldlM (addFileSlices set) front = .ok (front ++ ids.flatMap (fileSlices set)) := by
    induction ids generalizing front with
    | nil =>
      rw [flatMap_nil, append_nil]
      rfl
    | cons id rest ih =>
      rw [foldlM_cons, addFileSlices_eq front (small id mem_cons_self), flatMap_cons, ← append_assoc]
      exact ih _ fun id member => small id (mem_cons_of_mem _ member)
  refine run set.recoveryFileIds [] fun id member => le_trans ?_ bound
  rw [inputSlices, length_flatMap]
  exact single_le_sum (by simp) _ (mem_map_of_mem member)

/-- The PAR2 constant of an input slice. -/
def sliceConstant (index : Nat) : Word := GfSymbol.power ((Gf.sliceLogs (Gf.order - 1)).getD index 0)

/-- The constants of the slices that verification found missing. -/
def missingConstants (set : Par2FileSet) (verification : VerificationResult) : List Word :=
  (missingGlobalIndices verification (inputSlices set)).map fun g : Fin _ => sliceConstant g

/-- Some choice of stored exponents, one for each missing slice, is invertible. -/
def Solvable (base : List Word) (stored : Finset Nat) : Prop :=
  ∃ rows : List Nat, rows.length = base.length ∧ rows.Nodup ∧ (∀ row ∈ rows, row ∈ stored) ∧ RegularRows base rows

theorem get_take_map_power {logs : List Nat}
    (inside : total ≤ ((logs.take total).map (GfSymbol.power : Nat → Word)).length) (g : Fin total) :
    ((logs.take total).map (GfSymbol.power : Nat → Word)).get (Fin.castLE inside g) =
      GfSymbol.power (logs.getD g 0) := by
  have below : (g : Nat) < logs.length := by
    grind
  simp [below]

theorem baseOf_missing {constants : List Word} (filled : Gf.inputSliceConstants total = .ok constants)
    (small : total ≤ 32768) (inside : total ≤ constants.length) (missing : List (Fin total)) :
    baseOf constants (missing.map (Fin.castLE inside)) = missing.map fun g : Fin total => sliceConstant g := by
  rw [Gf.inputSliceConstants_eq small] at filled
  obtain rfl := Except.ok.inj filled
  rw [baseOf, List.map_map]
  exact List.map_congr_left fun g _ => get_take_map_power inside g

theorem exists_constants (small : total ≤ 32768) :
    ∃ constants, Gf.inputSliceConstants total = .ok constants ∧ total ≤ constants.length := by
  refine ⟨_, Gf.inputSliceConstants_eq small, ?_⟩
  rw [length_map, length_take_of_le]
  rwa [Gf.sliceLogs_length]

/-- Within the limits planning either selects the greedy rows and inverts them, or
reports too few blocks because the greedy rows are too few. -/
theorem planRepairWithMemoryLimit_spec (validatePacketHash : RecoverySlice → Bool) (tiledEnvEnabled : Bool)
    (set : Par2FileSet) (verification : VerificationResult) (memoryLimit : Option Nat)
    (repairable : ∃ needed available, verification.repairable = .repairable needed available)
    (bound : (inputSlices set).length ≤ maxTotalInputSlices)
    (hashes : ∀ exponent slice, set.recoverySlices.lookup exponent = some slice → validatePacketHash slice = true)
    (memory : repairMatrixLimitReason (inputSlices set).length
      (missingGlobalIndices verification (inputSlices set)).length memoryLimit = none) :
    let base := missingConstants set verification
    let result := planRepairWithMemoryLimit validatePacketHash tiledEnvEnabled set verification memoryLimit
    let rows := greedy (RegularRows base) base.length set.recoverySlices.keys.sort
    (rows.length = base.length ∧ ∃ plan, result = .ok (.ok plan) ∧ plan.recoveryExponents = rows ∧
        Inverts base rows plan.decodeMatrix) ∨
      rows.length < base.length ∧
        ∃ needed available deficit, result = .ok (.error (.insufficientRecoveryData needed available deficit)) := by
  intro base result rows
  obtain ⟨needed, available, status⟩ := repairable
  have check : checkRepairable verification.repairable = .ok () := by rw [status]; rfl
  have size : (missingGlobalIndices verification _).length = base.length :=
    (length_map _).symm
  have unfolded : result = planRepairWithMemoryLimit validatePacketHash tiledEnvEnabled set verification memoryLimit := rfl
  simp only [planRepairWithMemoryLimit, check, globalToFile_eq bound, if_neg (not_lt.mpr bound), memory] at unfolded
  split at unfolded
  · rename_i few
    refine Or.inr ⟨?_, _, _, _, unfolded⟩
    rw [size] at few
    exact lt_of_le_of_lt (greedy_length_le_length _) few
  · obtain ⟨constants, filled, inside⟩ := exists_constants bound
    have known (exponent : Nat) (member : exponent ∈ set.recoverySlices.keys.sort) :
        (set.recoverySlices.lookup exponent).any validatePacketHash = true := by
      obtain ⟨slice, found⟩ := Option.isSome_iff_exists.mp
        ((set.recoverySlices.mem_keys _).mp ((Finset.mem_sort _).mp member))
      rw [found]
      exact hashes _ slice found
    have blames := @blamesFirstRow_core _
      ((availableInputGlobalIndices verification (inputSlices set)).map (Fin.castLE inside))
      ((missingGlobalIndices verification (inputSlices set)).map (Fin.castLE inside)) tiledEnvEnabled
    have spec := @selectRows_spec (fun exponent => (set.recoverySlices.lookup exponent).any validatePacketHash) _ _ _ _
      blames set.recoverySlices.keys.sort
    rw [filter_eq_self.mpr known, length_map, size, baseOf_missing filled bound inside] at spec
    rw [filled] at unfolded
    simp only [bind, Except.bind, dif_pos inside, size] at unfolded
    rcases spec with ⟨full, ⟨inputFactors, decode⟩, built, selected⟩ | ⟨few, available, selected⟩
    · rw [selected] at unfolded
      refine Or.inl ⟨full, _, unfolded, rfl, ?_⟩
      have inverse := buildRepairMatrixCore_inverts (by rw [length_map, size]; exact full) built
      rwa [baseOf_missing filled bound inside] at inverse
    · rw [selected] at unfolded
      exact Or.inr ⟨few, _, _, _, unfolded⟩

/-- Planning finds every solvable set exactly when, on the solvable sets, taking at each
column the least stored exponent that keeps the leading block regular never runs out. -/
theorem planRepair_complete_iff (validatePacketHash : RecoverySlice → Bool) (tiledEnvEnabled : Bool)
    (set : Par2FileSet) (verification : VerificationResult) (memoryLimit : Option Nat)
    (repairable : ∃ needed available, verification.repairable = .repairable needed available)
    (bound : (inputSlices set).length ≤ maxTotalInputSlices)
    (hashes : ∀ exponent slice, set.recoverySlices.lookup exponent = some slice → validatePacketHash slice = true)
    (memory : repairMatrixLimitReason (inputSlices set).length
      (missingGlobalIndices verification (inputSlices set)).length memoryLimit = none) :
    let base := missingConstants set verification
    let result := planRepairWithMemoryLimit validatePacketHash tiledEnvEnabled set verification memoryLimit
    ((Solvable base set.recoverySlices.keys → ∃ plan, result = .ok (.ok plan) ∧
        plan.recoveryExponents.length = base.length ∧ Inverts base plan.recoveryExponents plan.decodeMatrix) ∧
      ∀ needed available deficit, result = .ok (.error (.insufficientRecoveryData needed available deficit)) →
        ¬ Solvable base set.recoverySlices.keys) ↔
      (Solvable base set.recoverySlices.keys →
        ∃ rows, rows.length = base.length ∧ Chain (RegularRows base) set.recoverySlices.keys rows) := by
  intro base result
  rcases planRepairWithMemoryLimit_spec _ tiledEnvEnabled _ _ _ repairable bound hashes memory with
    ⟨full, plan, done, chosen, inverts⟩ | ⟨few, needed, available, deficit, failed⟩
  · refine iff_of_true ⟨fun _ => ⟨plan, done, ?_, ?_⟩, ?_⟩ fun _ => ⟨_, full, chain_greedy _⟩
    · rw [chosen]
      exact full
    · rw [chosen]
      exact inverts
    · grind
  · constructor
    · grind
    · intro chained
      have unsolvable : ¬ Solvable base set.recoverySlices.keys := by
        intro solvable
        obtain ⟨rows, size, chain⟩ := chained solvable
        rw [greedy_of_chain chain size] at few
        exact absurd size few.ne
      exact ⟨fun solvable => absurd solvable unsolvable, fun _ _ _ _ => unsolvable⟩

end Plan

section Sample

/-- One file of five slices with the given stored exponents. -/
def fiveSliceSet (exponents : List Nat) : Par2FileSet where
  recoverySetId := Vector.replicate 16 0
  sliceSize := 4
  recoveryFileIds := [Vector.replicate 16 1]
  nonRecoveryFileIds := []
  files := .tabulate {Vector.replicate 16 1} fun id => ⟨id, Vector.replicate 16 2, Vector.replicate 16 3, 20, "data", "data"⟩
  sliceChecksums := .tabulate ∅ fun _ => []
  recoverySlices := .tabulate exponents.toFinset fun exponent => ⟨exponent, .inMemory [0, 0, 0, 0]⟩
  creator := none
  unicodeNames := ⟨.tabulate ∅ fun _ => none, .tabulate ∅ fun _ => ("", "")⟩

def fiveSliceResult (validSlices : List Bool) : VerificationResult where
  files := [⟨Vector.replicate 16 1, validSlices⟩]
  repairable := .repairable 1 1

variable (exponents : List Nat)

theorem inputSlices_five :
    inputSlices (fiveSliceSet exponents) = (range 5).map fun s => (Vector.replicate 16 1, s) := by
  simp [inputSlices, fileSlices, fiveSliceSet, Table.tabulate, Par2FileSet.sliceCountForFile]

theorem missingConstants_five (v : List Bool) :
    missingConstants (fiveSliceSet exponents) (fiveSliceResult v) =
      ((List.range 5).filter fun s => !v.getD s false).map sliceConstant := by
  have missing (slices : List (FileId × Nat)) (same : slices = (range 5).map fun s => (Vector.replicate 16 1, s)) :
      (missingGlobalIndices (fiveSliceResult v) slices).map Fin.val = (range 5).filter fun s => !v.getD s false := by
    have size : slices.length = 5 := by rw [same, length_map, length_range]
    have valid (g : Fin slices.length) : isValidSlice (fiveSliceResult v) (slices.get g) = v.getD g false := by
      subst same
      simp [isValidSlice, fiveSliceResult]
    rw [missingGlobalIndices, ← size, ← map_coe_finRange_eq_range, filter_map]
    refine congrArg (map Fin.val) (filter_congr fun g _ => ?_)
    rw [valid]
    rfl
  rw [← missing _ (inputSlices_five _), List.map_map]
  rfl

theorem missingConstants_crossed :
    missingConstants (fiveSliceSet exponents) (fiveSliceResult [false, true, false, true, false]) =
      baseOf fiveConstants crossedMissing := by
  have inside : 5 ≤ fiveConstants.length := le_rfl
  rw [missingConstants_five]
  exact (baseOf_missing inputSliceConstants_five (by decide) inside [0, 2, 4]).symm

theorem stored_five {exponents : List Nat} (sorted : exponents.Pairwise (· < ·)) :
    (fiveSliceSet exponents).recoverySlices.keys.sort = exponents :=
  (toFinset_sort _ (sorted.imp Nat.ne_of_lt)).mpr (sorted.imp Nat.le_of_lt)

/-- Three stored blocks rebuild the three missing slices, and planning reports too few. -/
theorem planRepair_crossed :
    let set := fiveSliceSet crossedExponents
    let verification := fiveSliceResult [false, true, false, true, false]
    (inputSlices set).length ≤ maxTotalInputSlices ∧ (missingConstants set verification).length = 3 ∧
      Solvable (missingConstants set verification) set.recoverySlices.keys ∧
      ∃ needed available deficit, planRepair (fun _ => true) true set verification =
        .ok (.error (.insufficientRecoveryData needed available deficit)) := by
  intro set verification
  have same : crossedExponents.length = crossedMissing.length := rfl
  have sorted : crossedExponents.Pairwise (· < ·) := by decide
  have small : (inputSlices set).length = 5 := by rw [inputSlices_five]; rfl
  have base := missingConstants_crossed crossedExponents
  have regular {k : Nat} (bound : k ≤ crossedMissing.length) := leadingRegular_iff_regularRows same bound
  have missing : (missingGlobalIndices verification (inputSlices set)).length = 3 := by
    have size := congrArg length base
    rwa [missingConstants, length_map] at size
  refine ⟨?_, by rw [base]; rfl, ⟨crossedExponents, by rw [base]; rfl, sorted.imp Nat.ne_of_lt, ?_, ?_⟩, ?_⟩
  · rw [small]
    decide
  · exact fun row member => mem_toFinset.mpr member
  · rw [base]
    exact (regular le_rfl).mp (crossed_three same)
  · have few : (greedy (RegularRows (baseOf fiveConstants crossedMissing)) 3 crossedExponents).length < 3 := by
      rw [← greedy_eraseIdx (k := 1) (by decide) (by decide)]
      · exact lt_of_le_of_lt (greedy_length_le_length _) (by decide)
      · intro i first
        obtain rfl : i = 0 := by omega
        exact (regular (by decide)).mp (crossed_one same)
      · exact fun two => crossed_two same ((regular (by decide)).mpr two)
    have memory : repairMatrixLimitReason (inputSlices set).length
        (missingGlobalIndices verification (inputSlices set)).length (some defaultRepairMemoryLimit) = none := by
      rw [missing, small]
      decide
    rcases planRepairWithMemoryLimit_spec (fun _ => true) true set verification _
      ⟨_, _, rfl⟩ (by rw [small]; decide) (fun _ _ _ => rfl) memory with ⟨full, -⟩ | ⟨-, failed⟩
    · rw [base, stored_five sorted] at full
      exact absurd full few.ne
    · exact failed

/-- One stored block for one missing slice. -/
theorem planRepair_complete_single :
    let set := fiveSliceSet [0]
    let verification := fiveSliceResult [false, true, true, true, true]
    Solvable (missingConstants set verification) set.recoverySlices.keys →
      ∃ plan, planRepair (fun _ => true) true set verification = .ok (.ok plan) ∧
        plan.recoveryExponents.length = (missingConstants set verification).length ∧
        Inverts (missingConstants set verification) plan.recoveryExponents plan.decodeMatrix := by
  intro set verification
  have small : (inputSlices set).length = 5 := by rw [inputSlices_five]; rfl
  have base : missingConstants set verification = [sliceConstant 0] := missingConstants_five _ _
  have missing : (missingGlobalIndices verification (inputSlices set)).length = 1 := by
    grind [missingConstants, length_map, length]
  have memory : repairMatrixLimitReason (inputSlices set).length
      (missingGlobalIndices verification (inputSlices set)).length (some defaultRepairMemoryLimit) = none := by
    rw [missing, small]
    decide
  refine ((planRepair_complete_iff (fun _ => true) true set verification _
    ⟨_, _, rfl⟩ (by rw [small]; decide) (fun _ _ _ => rfl) memory).mpr fun solvable => ⟨[0], ?_, ?_⟩).1
  · rw [base]
    rfl
  · rw [base]
    refine ⟨pairwise_singleton _ _, ?_, ?_, ?_⟩
    · exact fun row member => mem_toFinset.mpr member
    · intro k first
      obtain rfl : k = 0 := Nat.lt_one_iff.mp first
      have unit : (recoveryMatrix [sliceConstant 0] [0]).det = 1 := det_fin_one _
      rw [RegularRows]
      exact unit ▸ one_ne_zero
    · grind

end Sample
end Par2
end Rarpar

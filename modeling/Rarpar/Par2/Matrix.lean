import Rarpar.Data.Fallible
import Rarpar.ReedSolomon.MatrixTiled

namespace Rarpar
open Matrix Elimination Accumulate List

namespace Par2
open AugmentedRows
variable {n : Nat} {κ : Type*} {prev : Option (Nat × (κ → Word))}

structure DecodeMatrixError where
  badRow : Option Nat
  reason : String
deriving DecidableEq

def DecodeMatrixError.new (reason : String) : DecodeMatrixError := ⟨none, reason⟩

def DecodeMatrixError.singular (badRow : Nat) : DecodeMatrixError :=
  ⟨some badRow, "matrix is singular (no pivot found)"⟩

/-- A row-major matrix over GF(2^16). -/
structure RowMatrix where
  rows : Nat
  cols : Nat
  data : Fin rows → Fin cols → Word

def RowMatrix.zeros (rows cols : Nat) : RowMatrix := ⟨rows, cols, fun _ _ => 0⟩

/-- One column of the rank-1 elimination. The pivot is the diagonal entry. -/
def eliminateColumn (rows : AugmentedRows n κ) (col : Fin n) : Except Nat (AugmentedRows n κ) := do
  let rows ← scalePivot col rows
  return ((List.finRange n).filter (· ≠ col)).foldl (fun rows row => addRow col row col ((rows row).left col) rows) rows

def gaussianEliminateVandermondeInner (useTiled : Bool) (rows : AugmentedRows n κ) :
    Except DecodeMatrixError (AugmentedRows n κ) :=
  Except.mapError DecodeMatrixError.singular
    (if useTiled then invertAugmentedTiled rows else (List.finRange n).foldlM eliminateColumn rows)

def tiledEliminationThreshold : Nat := 256

def gaussianEliminateVandermonde (tiledEnvEnabled : Bool) (rows : AugmentedRows n κ) :
    Except DecodeMatrixError (AugmentedRows n κ) :=
  gaussianEliminateVandermondeInner (decide (tiledEliminationThreshold ≤ n) && tiledEnvEnabled) rows

/-- A row whose exponent continues a run is the row before it times `base`. -/
def vandermondeRow (base : κ → Word) (prev : Option (Nat × (κ → Word))) (exp : Nat) : κ → Word :=
  match prev with
  | some (before, row) =>
    if before + 1 = exp then fun c => Gf.mul (row c) (base c) else fun c => Gf.pow (base c) exp
  | none => fun c => Gf.pow (base c) exp

def vandermondeRows (base : κ → Word) : Option (Nat × (κ → Word)) → List Nat → List (κ → Word)
  | _, [] => []
  | prev, exp :: rest =>
    vandermondeRow base prev exp :: vandermondeRows base (some (exp, vandermondeRow base prev exp)) rest

/-- The missing columns on the left, and `[available | identity]` on the right. -/
def fillVandermondeRows (constants : List Word) (available missing : List (Fin constants.length))
    (recoveryExponents : List Nat) : AugmentedRows missing.length (Fin (available.length + missing.length)) :=
  let subBase := fun j => constants.get (missing.get j)
  let repBase := fun k => constants.get (available.get k)
  fun i =>
    { left := (vandermondeRows subBase none recoveryExponents).getD i fun _ => 0
      right := Fin.addCases ((vandermondeRows repBase none recoveryExponents).getD i fun _ => 0)
        fun k => if i = k then 1 else 0 }

def extractColumns {r a c : Nat} (data : Fin r → Fin (a + c) → Word) : RowMatrix :=
  ⟨r, c, fun row col => data row (Fin.natAdd a col)⟩

def buildRepairMatrixCore (constants : List Word) (available missing : List (Fin constants.length))
    (recoveryExponents : List Nat) (forceTiled : Option Bool) (tiledEnvEnabled : Bool) :
    Except DecodeMatrixError (RowMatrix × RowMatrix) :=
  if recoveryExponents.length ≠ missing.length then
    .error (.new s!"recovery exponent count ({recoveryExponents.length}) does not match missing slice count ({missing.length})")
  else if missing.length = 0 then .ok (.zeros 0 available.length, .zeros 0 0)
  else do
    let rows := fillVandermondeRows constants available missing recoveryExponents
    let rows ← match forceTiled with
      | some useTiled => gaussianEliminateVandermondeInner useTiled rows
      | none => gaussianEliminateVandermonde tiledEnvEnabled rows
    return (⟨_, _, fun r => (rows r).right⟩, extractColumns fun r => (rows r).right)

theorem vandermondeRow_eq (base : κ → Word) (exp : Nat)
    (powers : ∀ before row, prev = some (before, row) → row = fun c => Gf.pow (base c) before) :
    vandermondeRow base prev exp = fun c => Gf.pow (base c) exp := by
  unfold vandermondeRow
  split
  · rename_i before row
    obtain rfl := powers before row rfl
    split_ifs with next
    · funext c
      simp only [← next, Gf.mul_eq, Gf.pow_eq, pow_succ]
    · rfl
  · rfl

theorem vandermondeRows_eq (base : κ → Word) (exponents : List Nat)
    (powers : ∀ before row, prev = some (before, row) → row = fun c => Gf.pow (base c) before) :
    vandermondeRows base prev exponents = exponents.map fun exp c => Gf.pow (base c) exp := by
  induction exponents generalizing prev with
  | nil => rfl
  | cons exp rest ih =>
    rw [vandermondeRows, vandermondeRow_eq base exp powers, map_cons, ih]
    rintro _ _ ⟨⟩
    rfl

variable {A : Matrix (Fin n) (Fin n) Word} {B : Matrix (Fin n) κ Word} {rows : AugmentedRows n κ}

theorem eliminateColumn_reached {col : Fin n} (regular : ∀ k ≤ (col : Nat), LeadingRegular A k)
    (stage : Stage A B col rows) : Reached A (col + 1) (Stage A B (col + 1)) (eliminateColumn rows col) := by
  refine (scalePivot_reached (stage col) regular).bind fun rows' regular' reached => ⟨regular', ?_⟩
  obtain ⟨pivot, frame⟩ := reached
  have listed (r : Fin n) : r ∈ (finRange n).filter (· ≠ col) ↔ r ≠ col := by simp
  obtain ⟨cleared, kept⟩ := foldl_clear_column ((nodup_finRange n).filter _)
    (fun member => (listed col).mp member rfl) pivot
    (fun r member => by
      rw [frame r ((listed r).mp member)]
      exact stage r)
  intro r
  by_cases same : r = col
  · rw [same, kept col fun member => (listed col).mp member rfl]
    exact pivot
  · exact cleared r ((listed r).mpr same)

theorem foldlM_eliminateColumn_reached {k : Nat} {todo : List (Fin n)} (run : Consecutive k todo)
    (regular : ∀ i ≤ k, LeadingRegular A i) (stage : Stage A B k rows) :
    Reached A (k + todo.length) (Stage A B (k + todo.length)) (todo.foldlM eliminateColumn rows) := by
  induction todo generalizing k rows with
  | nil => exact ⟨regular, stage⟩
  | cons col rest ih =>
    obtain ⟨first, run⟩ := run.cons
    subst first
    rw [foldlM_cons, length_cons, Nat.add_comm rest.length, ← Nat.add_assoc]
    exact (eliminateColumn_reached regular stage).bind fun rows' regular' stage' => ih run regular' stage'

section
variable (A : Matrix (Fin n) (Fin n) Word) (B : Matrix (Fin n) κ Word)

theorem foldlM_eliminateColumn_outcome :
    Outcome A B ((finRange n).foldlM eliminateColumn fun r => ⟨A r, B r⟩) := by
  have reached := foldlM_eliminateColumn_reached (consecutive_finRange n) (A := A) (B := B)
    (fun k le => Nat.le_zero.mp le ▸ leadingRegular_zero A) (RowState.start A B)
  rwa [length_finRange, Nat.zero_add] at reached

theorem eliminateColumn_error_iff {col : Fin n} {c : Nat} :
    eliminateColumn rows col = .error c ↔ (rows col).left col = 0 ∧ (col : Nat) = c := by
  unfold eliminateColumn scalePivot
  dsimp only
  split
  · rename_i zero
    constructor
    · rintro ⟨⟩
      exact ⟨zero, rfl⟩
    · rintro ⟨_, rfl⟩
      rfl
  · rename_i pivot
    refine iff_of_false ?_ fun both => pivot both.1
    split
    · nofun
    · nofun

/-- The tiled elimination stops at the column where the elimination column by column first
meets a zero pivot, and otherwise leaves the identity and the solution. Either way it
returns what the rank-1 path returns. -/
theorem invertAugmentedTiled_eq_rankOne (A : Matrix (Fin n) (Fin n) Word) (B : Matrix (Fin n) κ Word) :
    let start : AugmentedRows n κ := fun r => ⟨A r, B r⟩
    invertAugmentedTiled start = (finRange n).foldlM eliminateColumn start ∧
      (∀ c, invertAugmentedTiled start = .error c ↔ ∃ (col : Fin n) (rows : AugmentedRows n κ), (col : Nat) = c ∧
        ((finRange n).take c).foldlM eliminateColumn start = .ok rows ∧ (rows col).left col = 0) ∧
      ∀ rows, invertAugmentedTiled start = .ok rows →
        of (fun r => (rows r).left) = 1 ∧ IsUnit A.det ∧ of (fun r => (rows r).right) = A⁻¹ * B := by
  intro start
  have tiled : Outcome A B _ := invertAugmentedTiled_outcome A B
  have same := tiled.unique (foldlM_eliminateColumn_outcome A B)
  refine ⟨same, fun c => ?_, fun rows done => ?_⟩
  · rw [same, foldlM_eq_error_iff]
    constructor
    · rintro ⟨i, rows, ran, col, present, failed⟩
      obtain ⟨zero, index⟩ := eliminateColumn_error_iff.mp failed
      obtain ⟨_, entry⟩ := List.getElem?_eq_some_iff.mp present
      have position : (col : Nat) = i := by rw [← entry, getElem_finRange, Fin.val_cast]
      exact ⟨col, rows, index, by rwa [← index, position], zero⟩
    · rintro ⟨col, rows, rfl, ran, zero⟩
      refine ⟨col, rows, ran, col, ?_, eliminateColumn_error_iff.mpr ⟨zero, rfl⟩⟩
      simp
  · rw [done] at tiled
    exact tiled.reduced

/-- Both elimination strategies return the solution when every leading block is regular,
and name the first column whose block is not. -/
theorem gaussianEliminateVandermondeInner_spec (useTiled : Bool) :
    (∃ rows, gaussianEliminateVandermondeInner useTiled (fun r => ⟨A r, B r⟩) = .ok rows ∧
        (∀ k ≤ n, LeadingRegular A k) ∧ A * of (fun r => (rows r).right) = B) ∨
      ∃ col : Fin n, gaussianEliminateVandermondeInner useTiled (fun r => ⟨A r, B r⟩) = .error (.singular col) ∧
        (∀ k ≤ (col : Nat), LeadingRegular A k) ∧ ¬ LeadingRegular A (col + 1) := by
  have outcome : Outcome A B (if useTiled then invertAugmentedTiled fun r => ⟨A r, B r⟩
      else (finRange n).foldlM eliminateColumn fun r => ⟨A r, B r⟩) := by
    split
    · exact invertAugmentedTiled_outcome A B
    · exact foldlM_eliminateColumn_outcome A B
  unfold gaussianEliminateVandermondeInner
  revert outcome
  generalize (if useTiled then _ else _ : Except Nat _) = result
  intro outcome
  cases result with
  | ok rows => exact Or.inl ⟨rows, rfl, outcome.1, outcome.solution⟩
  | error col => exact Or.inr ⟨⟨col, outcome.1⟩, rfl, outcome.2⟩

end

/-- The powers of the missing constants. -/
def vandermonde (constants : List Word) (missing : List (Fin constants.length)) (exponent : Fin missing.length → Nat) :
    Matrix (Fin missing.length) (Fin missing.length) Word :=
  Matrix.of fun i j => constants.get (missing.get j) ^ exponent i

/-- The powers of the available constants beside the unit columns. -/
def sources (constants : List Word) (available : List (Fin constants.length)) (exponent : Fin n → Nat) :
    Matrix (Fin n) (Fin (available.length + n)) Word :=
  Matrix.of fun i => Fin.addCases (fun k => constants.get (available.get k) ^ exponent i) fun k => if i = k then 1 else 0

section Build
variable {constants : List Word} (available : List (Fin constants.length)) {missing : List (Fin constants.length)}
  {recoveryExponents : List Nat}

theorem fillVandermondeRows_eq (same : recoveryExponents.length = missing.length) :
    let exponent := fun i => recoveryExponents.get (Fin.cast same.symm i)
    fillVandermondeRows _ available missing recoveryExponents =
      fun r => ⟨vandermonde _ missing exponent r, sources _ available exponent r⟩ := by
  have entry {κ : Type} (base : κ → Word) (i : Fin missing.length) :
      (vandermondeRows base none recoveryExponents).getD i (fun _ => 0) =
        fun c => base c ^ recoveryExponents.get (Fin.cast same.symm i) := by
    rw [vandermondeRows_eq base _ (by simp), getD_eq_getElem _ _ (by simp [same])]
    simp [Gf.pow_eq]
  funext r
  simp only [fillVandermondeRows, entry]
  rfl

/-- The repair matrix solves the Vandermonde system of the selected rows, unless a
leading block of it is singular. -/
theorem buildRepairMatrixCore_spec (same : recoveryExponents.length = missing.length) (forceTiled : Option Bool)
    (tiledEnvEnabled : Bool) :
    let exponent := fun i => recoveryExponents.get (Fin.cast same.symm i)
    let A := vandermonde _ missing exponent
    let result := buildRepairMatrixCore _ available missing recoveryExponents forceTiled tiledEnvEnabled
    (∃ X : Matrix (Fin missing.length) (Fin (available.length + missing.length)) Word,
        result = .ok (⟨_, _, X⟩, extractColumns X) ∧ (∀ k ≤ missing.length, LeadingRegular A k) ∧
          A * X = sources constants available exponent) ∨
      ∃ col : Fin missing.length, result = .error (.singular col) ∧
        (∀ k ≤ (col : Nat), LeadingRegular A k) ∧ ¬ LeadingRegular A (col + 1) := by
  intro exponent A result
  by_cases empty : missing.length = 0
  · obtain rfl := length_eq_zero_iff.mp empty
    refine Or.inl ⟨fun r => r.elim0, ?_, ?_, ?_⟩
    · simp only [result, buildRepairMatrixCore, if_neg (not_not.mpr same), if_pos empty, RowMatrix.zeros, extractColumns]
      congr
      · exact funext fun r => r.elim0
      · exact funext fun r => r.elim0
    · intro k le
      rw [Nat.le_zero.mp le]
      exact leadingRegular_zero A
    · exact funext fun r => r.elim0
  · have strategy : ∃ useTiled, result = do
        let rows ← gaussianEliminateVandermondeInner useTiled
          (fun r => (⟨A r, sources constants available exponent r⟩ : AugmentedRow _ _))
        return (⟨_, _, fun r => (rows r).right⟩, extractColumns fun r => (rows r).right) := by
      have filled := fillVandermondeRows_eq available same
      simp only [result, buildRepairMatrixCore, if_neg (not_not.mpr same), if_neg empty, filled]
      cases forceTiled with
      | some useTiled => exact ⟨useTiled, rfl⟩
      | none => exact ⟨_, rfl⟩
    obtain ⟨useTiled, unfolded⟩ := strategy
    rw [unfolded]
    rcases gaussianEliminateVandermondeInner_spec A _ useTiled with
      ⟨rows, done, regular, solution⟩ | ⟨col, failed, spec⟩
    · rw [done]
      exact Or.inl ⟨_, rfl, regular, solution⟩
    · rw [failed]
      exact Or.inr ⟨col, rfl, spec⟩

end Build

section Crossed
open GfSymbol

/-- The constants of a set of five slices. -/
def fiveConstants : List Word := [power 1, power 2, power 4, power 7, power 8]

theorem inputSliceConstants_five : Gf.inputSliceConstants 5 = .ok fiveConstants := by
  have front : range' 1 (Gf.order - 1) = range' 1 8 ++ range' 9 65526 := by
    rw [range'_append_1]
    rfl
  have logs : (Gf.sliceLogs (Gf.order - 1)).take 5 = [1, 2, 4, 7, 8] := by
    rw [Gf.sliceLogs, Nat.sub_sub_self (by decide), front, filter_append,
      take_append_of_le_length (by decide)]
    decide
  rw [Gf.inputSliceConstants_eq (by decide), logs]
  rfl

/-- The first, third and fifth of five slices. -/
def crossedMissing : List (Fin fiveConstants.length) := [⟨0, by decide⟩, ⟨2, by decide⟩, ⟨4, by decide⟩]

/-- A regular selection whose second leading block has two equal columns. -/
def crossedExponents : List Nat := [0, 21845, 21846]

/-- The system of the crossed selection. -/
def crossed (same : crossedExponents.length = crossedMissing.length) :
    Matrix (Fin crossedMissing.length) (Fin crossedMissing.length) Word :=
  vandermonde fiveConstants crossedMissing fun i => crossedExponents.get (Fin.cast same.symm i)

variable (same : crossedExponents.length = crossedMissing.length)

theorem crossed_apply (bound : n ≤ crossedMissing.length) (i j : Fin n) {k : Nat}
    (value : [1, 4, 8].getD j 0 * crossedExponents.getD i 0 % Gf.order = k) :
    crossed same (Fin.castLE bound i) (Fin.castLE bound j) = power k := by
  have base (j : Fin 3) : fiveConstants.get (crossedMissing.get j) = power ([1, 4, 8].getD j 0) := by
    fin_cases j <;> rfl
  have exponent : crossedExponents.get (Fin.cast same.symm (Fin.castLE bound i)) = crossedExponents.getD i 0 :=
    (getD_eq_getElem _ _ _).symm
  rw [← value]
  refine Eq.trans ?_ (power_mod (w := 16) _).symm
  rw [← power_pow, ← exponent]
  exact congrArg (· ^ _) (base (Fin.castLE bound j))

theorem crossed_one : LeadingRegular (crossed same) 1 := by
  have bound : 1 ≤ crossedMissing.length := by decide
  rw [leadingRegular_iff_det bound, det_fin_one, submatrix_apply, crossed_apply same bound 0 0 rfl]
  exact power_ne_zero _

theorem crossed_two : ¬ LeadingRegular (crossed same) 2 := by
  have bound : 2 ≤ crossedMissing.length := by decide
  rw [leadingRegular_iff_det bound, not_not, det_fin_two]
  simp only [submatrix_apply]
  rw [crossed_apply same bound 0 0 (k := 0) (by decide), crossed_apply same bound 0 1 (k := 0) (by decide),
    crossed_apply same bound 1 0 (k := 21845) (by decide), crossed_apply same bound 1 1 (k := 21845) (by decide),
    sub_self]

theorem crossed_three : LeadingRegular (crossed same) 3 := by
  have bound : 3 ≤ crossedMissing.length := by decide
  have expand (o u v a b c : Word) :
      o * u * c - o * v * b - o * u * c + o * v * a + o * u * b - o * u * a = o * ((v - u) * (a - b)) := by ring
  have apart {i j : Nat} (hi : i < 65535) (hj : j < 65535) (other : i ≠ j) : (power i : Word) - power j ≠ 0 :=
    sub_ne_zero.mpr fun equal => other (power_injOn (w := 16) hi hj equal)
  rw [leadingRegular_iff_det bound, det_fin_three]
  simp only [submatrix_apply]
  rw [crossed_apply same bound 0 0 (k := 0) (by decide), crossed_apply same bound 0 1 (k := 0) (by decide),
    crossed_apply same bound 0 2 (k := 0) (by decide), crossed_apply same bound 1 0 (k := 21845) (by decide),
    crossed_apply same bound 1 1 (k := 21845) (by decide), crossed_apply same bound 1 2 (k := 43690) (by decide),
    crossed_apply same bound 2 0 (k := 21846) (by decide), crossed_apply same bound 2 1 (k := 21849) (by decide), expand]
  refine mul_ne_zero (power_ne_zero 0) (mul_ne_zero ?_ ?_)
  · exact apart (by decide) (by decide) (by decide)
  · exact apart (by decide) (by decide) (by decide)

end Crossed
end Par2
end Rarpar

import Rarpar.Par2.Matrix
import Rarpar.ReedSolomon.Matrix

namespace Rarpar
open Matrix Elimination RepairCoefficients

namespace Par2
variable {n : Nat} {A : Matrix (Fin n) (Fin n) Word}

def RowMatrix.coefficients (matrix : RowMatrix) : RepairCoefficients := ⟨matrix.rows, matrix.cols, matrix.data⟩

/-- The pivoting builder inverts the same system, and fails at the first dependent
column. -/
theorem buildRepairMatrix_spec {constants : List Word} (available : List (Fin constants.length))
    {missing : List (Fin constants.length)} {recoveryExponents : List Nat} (same : recoveryExponents.length = missing.length) :
    let exponent := fun i => recoveryExponents.get (Fin.cast same.symm i)
    let A := vandermonde _ missing exponent
    let result := buildRepairMatrix _ available missing recoveryExponents
    (∃ X : Matrix (Fin missing.length) (Fin (available.length + missing.length)) Word,
        result = .ok ⟨_, _, X⟩ ∧ ColumnsIndependent A missing.length ∧ A * X = sources constants available exponent) ∨
      ∃ col : Fin missing.length, result = .error ⟨some col⟩ ∧
        ColumnsIndependent A col ∧ ¬ ColumnsIndependent A (col + 1) := by
  intro exponent A result
  have left : submatrix constants missing exponent = A := by
    funext i j
    exact Gf.pow_eq _ _
  have right : preMatrix constants available exponent = sources constants available exponent := by
    unfold preMatrix
    simp only [Gf.pow_eq]
    rfl
  by_cases empty : missing.length = 0
  · obtain rfl := List.length_eq_zero_iff.mp empty
    refine Or.inl ⟨fun r => r.elim0, ?_, ?_, ?_⟩
    · simp only [result, buildRepairMatrix, dif_pos same, if_pos empty]
      congr
    · exact fun v _ _ => funext fun j => j.elim0
    · exact funext fun r => r.elim0
  · have unfolded : result = do
        let inv ← gfInvert A
        return ⟨_, _, gfMatmul inv (sources constants available exponent)⟩ := by
      rw [← left, ← right]
      simp only [result, buildRepairMatrix, dif_pos same, if_neg empty]
      rfl
    rw [unfolded]
    rcases gfInvert_spec A with ⟨inv, done, inverse, independent⟩ | ⟨col, failed, spec⟩
    · rw [done]
      refine Or.inl ⟨_, rfl, independent, ?_⟩
      rw [gfMatmul_eq, ← Matrix.mul_assoc, mul_eq_one_comm.mp inverse, Matrix.one_mul]
    · rw [failed]
      exact Or.inr ⟨col, rfl, spec⟩

theorem solution_unique {κ : Type*} {X Y B : Matrix (Fin n) κ Word} (independent : ColumnsIndependent A n)
    (hX : A * X = B) (hY : A * Y = B) : X = Y := by
  funext i j
  have kernel : A *ᵥ (fun i => X i j - Y i j) = 0 := by
    funext r
    have entries : (A * X) r j = (A * Y) r j := by rw [hX, hY]
    rw [Matrix.mul_apply, Matrix.mul_apply] at entries
    simp only [Matrix.mulVec, dotProduct, mul_sub, Finset.sum_sub_distrib, entries, sub_self, Pi.zero_apply]
  have zero := independent _ (fun j above => absurd j.isLt (not_lt.mpr above)) kernel
  exact sub_eq_zero.mp (congrFun zero i)

/-- The first column without a regular block and the first dependent column coincide
exactly when independence of leading columns gives regular blocks. -/
theorem first_failure_eq_iff {c d : Fin n} (regular : ∀ k ≤ (c : Nat), LeadingRegular A k)
    (singular : ¬ LeadingRegular A (c + 1)) (independent : ColumnsIndependent A d)
    (dependent : ¬ ColumnsIndependent A (d + 1)) :
    c = d ↔ ∀ k ≤ n, ColumnsIndependent A k → LeadingRegular A k := by
  have order : c ≤ d := by
    by_contra after
    exact dependent ((regular c le_rfl).independent.mono (not_le.mp after))
  constructor
  · rintro rfl k bound prefixed
    refine regular k (not_lt.mp fun after => dependent (prefixed.mono after))
  · intro claim
    refine order.antisymm (not_lt.mp fun before => ?_)
    exact singular (claim (c + 1) c.isLt (independent.mono before))

/-- The two builders agree on a selection exactly when no regular prefix of the missing
columns has a singular leading block. -/
theorem buildRepairMatrix_agree_iff (constants : List Word) (available missing : List (Fin constants.length))
    (recoveryExponents : List Nat) (forceTiled : Option Bool) (tiledEnvEnabled : Bool) :
    ((buildRepairMatrixCore constants available missing recoveryExponents forceTiled tiledEnvEnabled).map
          fun result => result.1.coefficients).mapError DecodeMatrixError.badRow =
        (RepairCoefficients.buildRepairMatrix constants available missing recoveryExponents).mapError
          SingularMatrix.badRow ↔
      ∀ same : recoveryExponents.length = missing.length,
        PrefixRegular (vandermonde constants missing fun i => recoveryExponents.get (Fin.cast same.symm i)) := by
  by_cases same : recoveryExponents.length = missing.length
  · have direct := buildRepairMatrixCore_spec available same forceTiled tiledEnvEnabled
    have pivoted := buildRepairMatrix_spec available same
    have condition : (∀ same : recoveryExponents.length = missing.length,
        PrefixRegular (vandermonde _ missing fun i => recoveryExponents.get (Fin.cast same.symm i))) ↔ _ :=
      (forall_prop_of_true same).trans prefixRegular_iff
    rw [condition]
    generalize buildRepairMatrixCore constants available missing recoveryExponents forceTiled tiledEnvEnabled = x at *
    generalize buildRepairMatrix constants available missing recoveryExponents = y at *
    rcases direct with ⟨X, rfl, regular, solution⟩ | ⟨c, rfl, regular, singular⟩
    · rcases pivoted with ⟨Y, rfl, independent, solution'⟩ | ⟨d, rfl, independent, dependent⟩
      · refine iff_of_true ?_ fun k bound _ => regular k bound
        rw [solution_unique independent solution solution']
        rfl
      · exact absurd ((regular (d + 1) d.isLt).independent) dependent
    · rcases pivoted with ⟨Y, rfl, independent, solution'⟩ | ⟨d, rfl, independent, dependent⟩
      · refine iff_of_false (by rintro ⟨⟩) fun claim => ?_
        exact singular (claim (c + 1) c.isLt (independent.mono c.isLt))
      · rw [← first_failure_eq_iff regular singular independent dependent]
        constructor
        · intro agree
          exact Fin.ext (Option.some.inj (Except.error.inj agree))
        · rintro rfl
          rfl
  · simp [buildRepairMatrixCore, buildRepairMatrix, same, DecodeMatrixError.new, Except.map,
      Except.mapError]

/-- Without pivoting the crossed selection stops at its second column, with pivoting it
is solved. -/
theorem buildRepairMatrix_crossed :
    Gf.inputSliceConstants 5 = .ok fiveConstants ∧ crossedMissing.Nodup ∧
      (∀ available forceTiled tiledEnvEnabled,
        buildRepairMatrixCore fiveConstants available crossedMissing crossedExponents forceTiled tiledEnvEnabled =
          .error (.singular 1)) ∧
      ∀ available, ∃ coefficients,
        RepairCoefficients.buildRepairMatrix fiveConstants available crossedMissing crossedExponents =
          .ok coefficients := by
  have same : crossedExponents.length = crossedMissing.length := rfl
  refine ⟨inputSliceConstants_five, by decide, ?_, ?_⟩
  · intro available forceTiled tiledEnvEnabled
    rcases buildRepairMatrixCore_spec available same forceTiled tiledEnvEnabled with
      ⟨X, done, regular, solution⟩ | ⟨col, failed, regular, singular⟩
    · exact absurd (regular 2 (by decide)) (crossed_two same)
    · have stop : (col : Nat) = 1 := by
        match col with
        | ⟨0, _⟩ => exact absurd (crossed_one same) singular
        | ⟨1, _⟩ => rfl
        | ⟨2, _⟩ => exact absurd (regular 2 le_rfl) (crossed_two same)
      rw [failed, stop]
  · intro available
    rcases buildRepairMatrix_spec available same with ⟨X, done, spec⟩ | ⟨col, failed, independent, dependent⟩
    · exact ⟨_, done⟩
    · exact absurd ((crossed_three same).independent.mono col.isLt) dependent

end Par2
end Rarpar

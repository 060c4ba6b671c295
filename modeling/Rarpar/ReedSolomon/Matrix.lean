import Rarpar.Algebra.Accumulate
import Rarpar.ReedSolomon.AugmentedRows

namespace Rarpar
open Matrix Elimination Accumulate List

/-- The coefficients that rebuild each missing slice from the sources, row by row. -/
structure RepairCoefficients where
  rows : Nat
  cols : Nat
  data : Fin rows → Fin cols → Word

structure SingularMatrix where
  badRow : Option Nat

namespace RepairCoefficients
variable {n : Nat}

def swapRows (col piv : Fin n) (rows : AugmentedRows n (Fin n)) : AugmentedRows n (Fin n) :=
  fun r => rows (Equiv.swap col piv r)

def scaleRow (col : Fin n) (rows : AugmentedRows n (Fin n)) : AugmentedRows n (Fin n) :=
  let pivotInv := Gf.invEntry ((rows col).left col)
  Function.update rows col
    { left := fun k => Gf.mul ((rows col).left k) pivotInv
      right := fun k => Gf.mul ((rows col).right k) pivotInv }

/-- Each row other than `col` loses its entry in column `col`. -/
def clearColumn (col : Fin n) (rows : AugmentedRows n (Fin n)) : AugmentedRows n (Fin n) := fun row =>
  let f := (rows row).left col
  if row = col ∨ f = 0 then rows row
  else
    { left := fun k => (rows row).left k + Gf.mul f ((rows col).left k)
      right := fun k => (rows row).right k + Gf.mul f ((rows col).right k) }

/-- One column of the inverse: the first row from the diagonal on with a nonzero entry
becomes the pivot row. -/
def invertColumn (rows : AugmentedRows n (Fin n)) (col : Fin n) : Except SingularMatrix (AugmentedRows n (Fin n)) :=
  match (List.finRange n).find? fun r => decide (col ≤ r ∧ (rows r).left col ≠ 0) with
  | none => .error ⟨some col⟩
  | some piv =>
    let rows := if piv ≠ col then swapRows col piv rows else rows
    .ok (clearColumn col (scaleRow col rows))

/-- `mat` and the identity are the two halves of the rows at the start. -/
def gfInvert (mat : Matrix (Fin n) (Fin n) Word) : Except SingularMatrix (Matrix (Fin n) (Fin n) Word) := do
  let rows ← (List.finRange n).foldlM invertColumn fun r => ⟨mat r, fun k => if r = k then 1 else 0⟩
  return Matrix.of fun r => (rows r).right

def gfMatmul {r k c : Nat} (a : Matrix (Fin r) (Fin k) Word) (b : Matrix (Fin k) (Fin c) Word) :
    Matrix (Fin r) (Fin c) Word := fun i j =>
  (List.finRange k).foldl (fun out x => if a i x = 0 then out else out + Gf.mul (a i x) (b x j)) 0

theorem gfMatmul_eq {r k c : Nat} (a : Matrix (Fin r) (Fin k) Word) (b : Matrix (Fin k) (Fin c) Word) :
    gfMatmul a b = a * b := by
  funext i j
  have step (out : Word) (x : Fin k) :
      (if a i x = 0 then out else out + Gf.mul (a i x) (b x j)) = out + a i x * b x j := by
    split_ifs with zero
    · rw [zero, zero_mul, add_zero]
    · rw [Gf.mul_eq]
  simp only [gfMatmul, step]
  rw [foldl_add, zero_add, Matrix.mul_apply, ← sum_ofFn, ofFn_eq_map]

/-- The rows of the state when the row operations so far multiply to `L`. -/
def product (A L : Matrix (Fin n) (Fin n) Word) : AugmentedRows n (Fin n) := fun r => ⟨(L * A) r, L r⟩

variable {A L : Matrix (Fin n) (Fin n) Word}

theorem swapRows_product (col piv : Fin n) :
    (if piv ≠ col then swapRows col piv (product A L) else product A L) =
      product A (L.submatrix (Equiv.swap col piv) id) := by
  split_ifs with same
  · rfl
  · rw [not_not.mp same, Equiv.swap_self]
    rfl

theorem clearColumn_product {col : Fin n} (pivot : (L * A) col col ≠ 0) :
    clearColumn col (scaleRow col (product A L)) = product A (clear col (fun r => (L * A) r col) L) := by
  have inverse : Gf.invEntry ((product A L col).left col) = ((L * A) col col)⁻¹ := Gf.invEntry_eq pivot
  have source : scaleRow col (product A L) col =
      ⟨fun k => (L * A) col k * ((L * A) col col)⁻¹, fun k => L col k * ((L * A) col col)⁻¹⟩ := by
    simp only [scaleRow, Function.update_self, inverse, Gf.mul_eq]
    rfl
  have others (row : Fin n) (other : row ≠ col) : scaleRow col (product A L) row = product A L row :=
    Function.update_of_ne other _ _
  funext row
  rw [clearColumn, product, ← clear_mul]
  by_cases same : row = col
  · subst same
    rw [if_pos (Or.inl rfl), source]
    exact AugmentedRow.ext (funext fun k => (if_pos rfl).symm) (funext fun k => (if_pos rfl).symm)
  · have cleared (κ : Type) (M : Matrix (Fin n) κ Word) : clear col (fun r => (L * A) r col) M row =
        fun k => M row k + (L * A) row col * (M col k * ((L * A) col col)⁻¹) := by
      funext k
      rw [clear, if_neg same, CharTwo.sub_eq_add, mul_comm _]
    rw [others row same, source, cleared, cleared]
    simp only [Gf.mul_eq]
    split_ifs with zero
    · have zero : (L * A) row col = 0 := zero.resolve_left same
      simp only [zero, zero_mul, add_zero]
      rfl
    · rfl

/-- One column either keeps the progress or finds the column dependent. -/
theorem invertColumn_spec {col : Fin n} (progress : PivotProgress A col L) :
    (∃ L', invertColumn (product A L) col = .ok (product A L') ∧ PivotProgress A (col + 1) L') ∨
      invertColumn (product A L) col = .error ⟨some col⟩ ∧ ¬ ColumnsIndependent A (col + 1) := by
  unfold invertColumn
  cases search : (finRange n).find? fun r => decide (col ≤ r ∧ (product A L r).left col ≠ 0) with
  | none =>
    refine Or.inr ⟨rfl, progress.dependent fun r above => ?_⟩
    have absent := find?_eq_none.mp search r (mem_finRange r)
    by_contra nonzero
    exact absent (decide_eq_true ⟨above, nonzero⟩)
  | some piv =>
    have found := find?_some search
    obtain ⟨above, nonzero⟩ := of_decide_eq_true found
    have swapped := progress.swap above
    have pivot : (L.submatrix (Equiv.swap col piv) id * A) col col ≠ 0 := by
      have entry : (L.submatrix (Equiv.swap col piv) id * A) col col = (L * A) piv col := by
        simp [Matrix.mul_apply]
      rw [entry]
      exact nonzero
    refine Or.inl ⟨_, ?_, swapped.next pivot⟩
    simp only [swapRows_product, clearColumn_product pivot]

theorem foldlM_invertColumn_spec {k : Nat} {todo : List (Fin n)} (run : Consecutive k todo)
    (progress : PivotProgress A k L) :
    (∃ L', todo.foldlM invertColumn (product A L) = .ok (product A L') ∧ PivotProgress A (k + todo.length) L') ∨
      ∃ col : Fin n, todo.foldlM invertColumn (product A L) = .error ⟨some col⟩ ∧
        ColumnsIndependent A col ∧ ¬ ColumnsIndependent A (col + 1) := by
  induction todo generalizing k L with
  | nil => exact Or.inl ⟨L, rfl, progress⟩
  | cons col rest ih =>
    obtain ⟨first, run⟩ := run.cons
    subst first
    rw [foldlM_cons]
    rcases invertColumn_spec progress with ⟨L', step, progress'⟩ | ⟨step, dependent⟩
    · rw [step, length_cons, Nat.add_comm rest.length, ← Nat.add_assoc]
      exact ih run progress'
    · rw [step]
      exact Or.inr ⟨col, rfl, progress.independent, dependent⟩

/-- The pivoting inverse fails exactly at the first column that depends on the columns
before it. -/
theorem gfInvert_spec (A : Matrix (Fin n) (Fin n) Word) :
    (∃ inv, gfInvert A = .ok inv ∧ inv * A = 1 ∧ ColumnsIndependent A n) ∨
      ∃ col : Fin n, gfInvert A = .error ⟨some col⟩ ∧
        ColumnsIndependent A col ∧ ¬ ColumnsIndependent A (col + 1) := by
  have start : product A 1 = fun r => ⟨A r, fun k => if r = k then 1 else 0⟩ := by
    funext r
    rw [product, Matrix.one_mul]
    rfl
  have spec := foldlM_invertColumn_spec (consecutive_finRange n) (PivotProgress.start A)
  rw [start, length_finRange, Nat.zero_add] at spec
  rcases spec with ⟨L, run, progress⟩ | ⟨col, run, spec⟩
  · refine Or.inl ⟨L, ?_, progress.finish, progress.independent⟩
    rw [gfInvert, run]
    rfl
  · refine Or.inr ⟨col, ?_, spec⟩
    rw [gfInvert, run]
    rfl

/-- `submatrix[i][j] = const[missing_j] ^ exp_i`. -/
def submatrix (constants : List Word) (missing : List (Fin constants.length)) (exponent : Fin missing.length → Nat) :
    Matrix (Fin missing.length) (Fin missing.length) Word := fun i j =>
  Gf.pow (constants.get (missing.get j)) (exponent i)

/-- The powers of the available constants beside the unit columns. -/
def preMatrix (constants : List Word) (available : List (Fin constants.length)) (exponent : Fin n → Nat) :
    Matrix (Fin n) (Fin (available.length + n)) Word := fun i =>
  Fin.addCases (fun k => Gf.pow (constants.get (available.get k)) (exponent i)) fun k => if i = k then 1 else 0

def buildRepairMatrix (constants : List Word) (available missing : List (Fin constants.length))
    (recoveryExponents : List Nat) : Except SingularMatrix RepairCoefficients :=
  if same : recoveryExponents.length = missing.length then
    let exponent := fun i => recoveryExponents.get (Fin.cast same.symm i)
    if missing.length = 0 then .ok ⟨0, available.length + missing.length, Fin.elim0⟩
    else do
      let inv ← gfInvert (submatrix constants missing exponent)
      return ⟨missing.length, available.length + missing.length,
        gfMatmul inv (preMatrix constants available exponent)⟩
  else .error ⟨none⟩

end RepairCoefficients
end Rarpar

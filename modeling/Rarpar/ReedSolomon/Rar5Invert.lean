import Rarpar.Algebra.Cauchy
import Rarpar.ReedSolomon.Rar5

namespace Rarpar
open Matrix Elimination List

namespace Rar5RsCoder

theorem filter_of_dropWhile {ι : Type*} (wanted : ι → Bool) (rows : List ι) :
    rows.filter wanted = (match rows.dropWhile (!wanted ·) with
      | [] => []
      | row :: rest => row :: rest.filter wanted) := by
  induction rows with
  | nil => rfl
  | cons row rest ih =>
    by_cases want : wanted row
    · simp [want]
    · simpa [want] using ih

theorem scanRows_eq {ι : Type*} (wanted : ι → Bool) (count : Nat) (rows : List ι) :
    scanRows wanted count rows =
      if count ≤ (rows.filter wanted).length then some ((rows.filter wanted).take count) else none := by
  induction count generalizing rows with
  | zero => simp [scanRows]
  | succ count ih =>
    rw [scanRows, filter_of_dropWhile]
    cases rows.dropWhile (!wanted ·) with
    | nil => simp
    | cons row rest =>
      simp only [ih, length_cons, Nat.succ_le_succ_iff, take_succ_cons]
      split <;> rfl

section Invert
variable {missing dataCount : Nat} {present : Fin dataCount → Bool} {key : Fin missing → Fin dataCount}

/-- The inverse starts with one unit entry per missing column. -/
def unitRows (key : Fin missing → Fin dataCount) : Matrix (Fin missing) (Fin dataCount) Word :=
  fun row col => if key row = col then 1 else 0

local instance : LawfulBEq (Fin dataCount) := inferInstance

/-- The part of `A` in the present columns among `seen`. -/
def presentPart (present : Fin dataCount → Bool) (A : Matrix (Fin missing) (Fin dataCount) Word)
    (seen : List (Fin dataCount)) : Matrix (Fin missing) (Fin dataCount) Word :=
  fun row col => if present col ∧ col ∈ seen then A row col else 0

variable {col : Fin dataCount}

theorem eliminateRows_eq_clear {pivotRow : Fin missing}
    (matrix target : Matrix (Fin missing) (Fin dataCount) Word) :
    eliminateRows pivotRow col (matrix pivotRow col)⁻¹ matrix target =
      clear pivotRow (fun row => matrix row col) target := by
  funext row c
  simp only [eliminateRows, clear, Gf.mul_eq, CharTwo.sub_eq_add]
  split
  · subst row
    rfl
  · split_ifs with zero
    · rw [zero, mul_zero, add_zero]
    · rfl

variable {A : Matrix (Fin missing) (Fin dataCount) Word} {L : Matrix (Fin missing) (Fin missing) Word}

theorem foldColumn_eq {seen : List (Fin dataCount)} (keys : ∀ row, present (key row) = false)
    (here : present col = true) (fresh : col ∉ seen) :
    foldColumn col (L * A) (L * (unitRows key + presentPart present A seen)) =
      L * (unitRows key + presentPart present A (seen ++ [col])) := by
  funext row c
  unfold foldColumn
  split_ifs with other
  · subst c
    rw [← Matrix.add_apply, ← Matrix.mul_add, Matrix.mul_apply, Matrix.mul_apply]
    refine Finset.sum_congr rfl fun i _ => congrArg (L row i * ·) ?_
    have notKey : key i ≠ col := by
      intro same
      rw [← same, keys i] at here
      cases here
    simp [unitRows, presentPart, notKey, fresh, here]
  · rw [mul_apply, mul_apply]
    refine Finset.sum_congr rfl fun i _ => congrArg (L row i * ·) ?_
    simp [presentPart, other]

theorem presentPart_skip (seen : List (Fin dataCount))
    (absent : present col = false) :
    presentPart present A (seen ++ [col]) = presentPart present A seen := by
  funext row c
  by_cases same : c = col
  · simp [presentPart, same, absent]
  · simp [presentPart, same]

/-- The column loop keeps `matrix = L * A` and `inverse = L * (units + present columns
seen)` for one product `L` of clearing steps, and no pivot vanishes. -/
theorem invertColumns_eq (regular : ∀ n, LeadingRegular (A.submatrix id key) n)
    (keyed : (finRange dataCount).filter (!present ·) = ofFn key)
    (seen : List (Fin dataCount)) {rest : List (Fin dataCount)} (split : seen ++ rest = finRange dataCount)
    (progress : Progress (A.submatrix id key) (seen.filter (!present ·)).length L) :
    ∃ L', L' * A.submatrix id key = 1 ∧
      invertColumns present rest (seen.filter (!present ·)).length (L * A)
          (L * (unitRows key + presentPart present A seen)) =
        .ok (some (L' * (unitRows key + presentPart present A (finRange dataCount)))) := by
  have keys (row : Fin missing) : present (key row) = false := by
    have member : key row ∈ (finRange dataCount).filter (!present ·) := by
      rw [keyed]
      exact mem_ofFn.mpr ⟨row, rfl⟩
    simpa using member
  induction rest generalizing seen L with
  | nil =>
    rw [append_nil] at split
    subst split
    rw [keyed, length_ofFn] at progress
    exact ⟨L, progress.finish, rfl⟩
  | cons col rest ih =>
    have split' : (seen ++ [col]) ++ rest = finRange dataCount := by rw [append_assoc]; exact split
    rw [invertColumns]
    by_cases here : present col
    · have fresh : col ∉ seen := by
        intro old
        have nodup := nodup_finRange dataCount
        rw [← split, nodup_append] at nodup
        exact nodup.2.2 col old col mem_cons_self rfl
      have count : ((seen ++ [col]).filter (!present ·)).length = (seen.filter (!present ·)).length := by
        simp [filter_append, here]
      rw [if_pos here, foldColumn_eq keys here fresh, ← count]
      exact ih _ split' (by rwa [count])
    · have absent : present col = false := by simpa using here
      have count : ((seen ++ [col]).filter (!present ·)).length = (seen.filter (!present ·)).length + 1 := by
        simp [filter_append, absent]
      have order : ofFn key = seen.filter (!present ·) ++ col :: rest.filter (!present ·) := by
        rw [← keyed, ← split, filter_append, filter_cons_of_pos (by simpa using absent)]
      have inside : (seen.filter (!present ·)).length < missing := by
        have size := congrArg length order
        simp only [length_ofFn, length_append, length_cons] at size
        omega
      have next : key ⟨_, inside⟩ = col := by
        have entry := congrArg (·[(seen.filter (!present ·)).length]?) order
        simpa [inside] using entry
      have column (row : Fin missing) : (L * A) row col = (L * A.submatrix id key) row ⟨_, inside⟩ := by
        rw [mul_apply, mul_apply]
        simp only [submatrix_apply, id_eq, next]
      have pivot : (L * A) ⟨_, inside⟩ col ≠ 0 := by
        rw [column]
        exact progress.pivot_ne_zero (k := ⟨_, inside⟩) regular
      rw [if_neg here, dif_pos inside, if_neg pivot, Gf.inv_eq pivot]
      simp only [eliminateRows_eq_clear]
      rw [clear_mul, clear_mul, funext column, ← presentPart_skip seen absent, ← count]
      refine ih _ split' ?_
      rw [count]
      exact progress.next (k := ⟨_, inside⟩) (by rwa [← column])

end Invert
end Rar5RsCoder
end Rarpar

import Rarpar.Algebra.Elimination
import Rarpar.ReedSolomon.Gf

namespace Rarpar
open Matrix Elimination Function

/-- One row of a square matrix beside its row of the right-hand side. -/
@[ext] structure AugmentedRow (n : Nat) (κ : Type*) where
  left : Fin n → Word
  right : κ → Word

/-- The rows that an in-place elimination rewrites. -/
abbrev AugmentedRows (n : Nat) (κ : Type*) := Fin n → AugmentedRow n κ

namespace AugmentedRows
variable {n : Nat} {κ : Type*}

/-- Row `target` gains a multiple of row `source`, on the left from column `tail` on. -/
def addRow (tail target source : Fin n) (factor : Word) (rows : AugmentedRows n κ) : AugmentedRows n κ :=
  if factor = 0 then rows
  else Function.update rows target
    { left := fun c =>
        if tail ≤ c then (rows target).left c + Gf.mul factor ((rows source).left c) else (rows target).left c
      right := fun c => (rows target).right c + Gf.mul factor ((rows source).right c) }

/-- Scales a row to a unit pivot, on the left from the diagonal on. A zero pivot names
its column. -/
def scalePivot (col : Fin n) (rows : AugmentedRows n κ) : Except Nat (AugmentedRows n κ) :=
  let pivot := (rows col).left col
  if pivot = 0 then .error col
  else if pivot = 1 then .ok rows
  else
    let pivotInv := Gf.invEntry pivot
    .ok (Function.update rows col
      { left := fun c => if col ≤ c then Gf.mul ((rows col).left c) pivotInv else (rows col).left c
        right := fun c => Gf.mul ((rows col).right c) pivotInv })

/-- The row is a combination of the rows of `[A | B]` that is reduced to stage `a`. -/
def RowState (A : Matrix (Fin n) (Fin n) Word) (B : Matrix (Fin n) κ Word) (a b : Nat) (r : Fin n)
    (state : AugmentedRow n κ) : Prop :=
  ∃ row, RowReduced A a b r row ∧ state = ⟨row ᵥ* A, row ᵥ* B⟩

variable {A : Matrix (Fin n) (Fin n) Word} {B : Matrix (Fin n) κ Word} {rows : AugmentedRows n κ} {r s : Fin n}

theorem RowState.start (A : Matrix (Fin n) (Fin n) Word) (B : Matrix (Fin n) κ Word) (r : Fin n) :
    RowState A B 0 0 r ⟨A r, B r⟩ := by
  refine ⟨_, RowReduced.start A r, ?_⟩
  rw [← Matrix.mul_apply_eq_vecMul, ← Matrix.mul_apply_eq_vecMul, Matrix.one_mul, Matrix.one_mul]

theorem RowState.weaken {a b b' : Nat} {state : AugmentedRow n κ} (reduced : RowState A B a b r state) (le : b ≤ b') :
    RowState A B a b' r state := by
  obtain ⟨row, stage, same⟩ := reduced
  exact ⟨row, stage.weaken le, same⟩

theorem addRow_of_ne {tail target source : Fin n} (factor : Word) (other : r ≠ target) :
    addRow tail target source factor rows r = rows r := by
  unfold addRow
  split
  · rfl
  · rw [update_of_ne other]

theorem addRow_entry {b : Nat} {tail c : Fin n} (finished : RowState A B b b s (rows s)) (inside : c < b)
    (other : s ≠ c) (factor : Word) : (addRow tail r s factor rows r).left c = (rows r).left c := by
  obtain ⟨source, stage, same⟩ := finished
  have zero : (rows s).left c = 0 := by
    rw [same]
    exact (stage.cleared c inside).trans (one_apply_ne other)
  unfold addRow
  split
  · rfl
  · rw [update_self]
    simp only [zero, Gf.mul_eq, mul_zero, add_zero, ite_self]

/-- Adding the finished row `s` with the factor in column `s` clears that column. -/
theorem addRow_state {b : Nat} {tail : Fin n} (reduced : RowState A B s b r (rows r))
    (finished : RowState A B b b s (rows s)) (below : s < b) (other : r ≠ s) (head : tail ≤ s) :
    RowState A B (s + 1) b r (addRow tail r s ((rows r).left s) rows r) := by
  obtain ⟨row, stage, same⟩ := reduced
  obtain ⟨source, sourceStage, sourceSame⟩ := finished
  refine ⟨_, stage.sub sourceStage below other, ?_⟩
  have factor : (rows r).left s = (row ᵥ* A) s := by rw [same]
  rw [factor]
  unfold addRow
  split_ifs with zero
  · rw [same, zero, zero_smul, sub_zero]
  · have zero (c : Fin n) (before : ¬ tail ≤ c) : (source ᵥ* A) c = 0 := by
      rw [sourceStage.cleared c (by omega), one_apply_ne]
      omega
    rw [update_self, same, sourceSame]
    ext c : 2 <;> simp only [Gf.mul_eq, sub_vecMul, smul_vecMul, Pi.sub_apply, Pi.smul_apply, smul_eq_mul, CharTwo.sub_eq_add]
    split_ifs with before
    · rfl
    · rw [zero c before, mul_zero, add_zero]

theorem scalePivot_error (zero : (rows r).left r = 0) : scalePivot r rows = .error (r : Nat) := by
  rw [scalePivot, if_pos zero]

/-- A nonzero pivot is scaled to one, and the other rows stay as they are. -/
theorem scalePivot_ok (reduced : RowState A B r r r (rows r)) (pivot : (rows r).left r ≠ 0) :
    ∃ rows', scalePivot r rows = .ok rows' ∧ RowState A B (r + 1) (r + 1) r (rows' r) ∧
      ∀ t, t ≠ r → rows' t = rows t := by
  obtain ⟨row, stage, same⟩ := reduced
  have entry : (rows r).left r = (row ᵥ* A) r := by rw [same]
  have scaled := stage.scale (by rwa [← entry])
  rw [scalePivot, if_neg pivot]
  split_ifs with one
  · refine ⟨rows, rfl, ⟨_, scaled, ?_⟩, fun _ _ => rfl⟩
    rw [same, ← entry, one, inv_one, one_smul]
  · refine ⟨_, rfl, ⟨_, scaled, ?_⟩, fun t other => update_of_ne other _ _⟩
    have zero (c : Fin n) (before : ¬ r ≤ c) : (row ᵥ* A) c = 0 := by
      rw [stage.cleared c (by omega), one_apply_ne]
      omega
    rw [update_self, Gf.invEntry_eq pivot, entry, same]
    ext c : 2 <;> simp only [Gf.mul_eq, smul_vecMul, Pi.smul_apply, smul_eq_mul, mul_comm _⁻¹]
    split_ifs with before
    · rfl
    · rw [zero c before, zero_mul]

theorem RowState.pivot_iff (reduced : RowState A B r r r (rows r)) (regular : LeadingRegular A r) :
    (rows r).left r ≠ 0 ↔ LeadingRegular A (r + 1) := by
  obtain ⟨row, stage, same⟩ := reduced
  rw [same]
  exact stage.pivot_ne_zero_iff regular

theorem leadingRegular_zero (A : Matrix (Fin n) (Fin n) Word) : LeadingRegular A 0 :=
  fun _ head _ => funext fun j => head j (Nat.zero_le j)

/-- What an elimination without row exchanges returns once it has passed `c` columns:
rows at the given stage when the leading blocks are regular that far, and otherwise
the first column whose block is not. -/
def Reached (A : Matrix (Fin n) (Fin n) Word) (c : Nat) (stage : AugmentedRows n κ → Prop) :
    Except Nat (AugmentedRows n κ) → Prop
  | .ok rows => (∀ k ≤ c, LeadingRegular A k) ∧ stage rows
  | .error k => k < n ∧ (∀ i ≤ k, LeadingRegular A i) ∧ ¬ LeadingRegular A (k + 1)

theorem Reached.bind {c d : Nat} {stage later : AugmentedRows n κ → Prop} {x : Except Nat (AugmentedRows n κ)}
    {f : AugmentedRows n κ → Except Nat (AugmentedRows n κ)} (reached : Reached A c stage x)
    (next : ∀ rows, (∀ k ≤ c, LeadingRegular A k) → stage rows → Reached A d later (f rows)) :
    Reached A d later (x >>= f) := by
  cases x with
  | error k => exact reached
  | ok rows => exact next rows reached.1 reached.2

theorem scalePivot_reached (reduced : RowState A B r r r (rows r)) (regular : ∀ k ≤ (r : Nat), LeadingRegular A k) :
    Reached A (r + 1) (fun rows' => RowState A B (r + 1) (r + 1) r (rows' r) ∧ ∀ t, t ≠ r → rows' t = rows t)
      (scalePivot r rows) := by
  have next := reduced.pivot_iff (regular r le_rfl)
  by_cases zero : (rows r).left r = 0
  · rw [scalePivot_error zero]
    exact ⟨r.isLt, regular, fun block => next.mpr block zero⟩
  · obtain ⟨rows', scaled, pivot, frame⟩ := scalePivot_ok reduced zero
    rw [scaled]
    refine ⟨fun k le => ?_, pivot, frame⟩
    rcases Nat.le_succ_iff.mp le with le | rfl
    · exact regular k le
    · exact next.mp zero

/-- Every row is reduced to stage `c`. -/
def Stage (A : Matrix (Fin n) (Fin n) Word) (B : Matrix (Fin n) κ Word) (c : Nat) (rows : AugmentedRows n κ) : Prop :=
  ∀ r, RowState A B c c r (rows r)

/-- What a whole elimination without row exchanges must return. -/
def Outcome (A : Matrix (Fin n) (Fin n) Word) (B : Matrix (Fin n) κ Word) : Except Nat (AugmentedRows n κ) → Prop :=
  Reached A n (Stage A B n)

theorem Outcome.solution (outcome : Outcome A B (.ok rows)) : A * of (fun r => (rows r).right) = B := by
  choose L stage same using outcome.2
  have inverse := funext fun r => (stage r).vecMul_eq
  have product : of (fun r => (rows r).right) = of L * B := by
    funext r
    exact congrArg AugmentedRow.right (same r)
  rw [product, ← Matrix.mul_assoc, mul_eq_one_comm.mp inverse, Matrix.one_mul]

theorem Outcome.reduced (outcome : Outcome A B (.ok rows)) :
    of (fun r => (rows r).left) = 1 ∧ IsUnit A.det ∧ of (fun r => (rows r).right) = A⁻¹ * B := by
  choose L stage same using outcome.2
  have inverse : of L * A = 1 := funext fun r => (stage r).vecMul_eq
  have regular := A.isUnit_det_of_left_inverse inverse
  refine ⟨?_, regular, ?_⟩
  · rw [← inverse]
    funext r
    exact congrArg AugmentedRow.left (same r)
  · rw [← outcome.solution, ← Matrix.mul_assoc, Matrix.nonsing_inv_mul A regular, Matrix.one_mul]

/-- Only one result fits a system. -/
theorem Outcome.unique {x y : Except Nat (AugmentedRows n κ)} (first : Outcome A B x) (second : Outcome A B y) :
    x = y := by
  cases x with
  | ok rows =>
    cases y with
    | ok rows' =>
      obtain ⟨left, _, right⟩ := first.reduced
      obtain ⟨left', _, right'⟩ := second.reduced
      refine congrArg Except.ok (funext fun r => AugmentedRow.ext ?_ ?_)
      · exact congrFun (left.trans left'.symm) r
      · exact congrFun (right.trans right'.symm) r
    | error d => exact absurd (first.1 (d + 1) second.1) second.2.2
  | error c =>
    cases y with
    | ok rows' => exact absurd (second.1 (c + 1) first.1) first.2.2
    | error d =>
      have upper : ¬ c < d := fun before => first.2.2 (second.2.1 (c + 1) before)
      have lower : ¬ d < c := fun before => second.2.2 (first.2.1 (d + 1) before)
      rw [show c = d by omega]

end AugmentedRows
end Rarpar

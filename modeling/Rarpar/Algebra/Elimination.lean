import Mathlib.LinearAlgebra.Matrix.ToLinearEquiv

namespace Rarpar
open Matrix Finset Function

namespace Elimination
variable {K : Type*} [Field K] {ι κ : Type*} [DecidableEq ι]

/-- Row `k` is divided by the pivot `column k`, and every other row loses the
multiple of it that clears `column`. -/
def clear (k : ι) (column : ι → K) (M : Matrix ι κ K) : Matrix ι κ K := fun i j =>
  if i = k then M k j * (column k)⁻¹ else M i j - M k j * (column k)⁻¹ * column i

theorem clear_of_zero {k : ι} {column : ι → K} {M : Matrix ι κ K} {j : κ} (zero : M k j = 0) (i : ι) :
    clear k column M i j = M i j := by
  unfold clear
  split
  · subst i
    simp [zero]
  · simp [zero]

theorem clear_pivot {k : ι} {M : Matrix ι κ K} {j : κ} (pivot : M k j ≠ 0) (i : ι) :
    clear k (fun i => M i j) M i j = (1 : Matrix ι ι K) i k := by
  unfold clear
  split_ifs with other
  · subst i
    simp [mul_inv_cancel₀ pivot]
  · simp [mul_inv_cancel₀ pivot, one_apply_ne other]

variable [Fintype ι] {n : Nat}

theorem clear_eq_mul (k : ι) (column : ι → K) (M : Matrix ι κ K) :
    clear k column M = clear k column (1 : Matrix ι ι K) * M := by
  ext i j
  rw [mul_apply]
  unfold clear
  split
  · simp [one_apply, mul_comm]
  · simp only [sub_mul, sum_sub_distrib, one_apply, ite_mul, one_mul, zero_mul,
      sum_ite_eq, mem_univ, if_true]
    ring

theorem clear_mul {l : Type*} (k : ι) (column : ι → K) (M : Matrix ι ι K) (N : Matrix ι l K) :
    clear k column (M * N) = clear k column M * N := by
  rw [clear_eq_mul, ← Matrix.mul_assoc, ← clear_eq_mul]

section Leading
variable {m : Nat} {A : Matrix (Fin m) (Fin m) K}

/-- The leading block of `n` rows and columns has a trivial kernel. -/
def LeadingRegular (A : Matrix (Fin m) (Fin m) K) (n : Nat) : Prop :=
  ∀ v : Fin m → K, (∀ j : Fin m, n ≤ j → v j = 0) → (∀ i : Fin m, i < n → (A *ᵥ v) i = 0) → v = 0

/-- The vector on the leading indices, continued by zeros. -/
def extend (m : Nat) {n : Nat} (v : Fin n → K) (j : Fin m) : K := if inside : (j : Nat) < n then v ⟨j, inside⟩ else 0

theorem extend_castLE (bound : n ≤ m) (v : Fin n → K) (j : Fin n) : extend m v (Fin.castLE bound j) = v j := by
  simp [extend]

theorem sum_leading (bound : n ≤ m) {f : Fin m → K} (tail : ∀ j : Fin m, n ≤ j → f j = 0) :
    ∑ j, f (Fin.castLE bound j) = ∑ j, f j := by
  refine Fintype.sum_of_injective _ (Fin.castLE_injective bound) _ f ?_ fun _ => rfl
  intro j outside
  refine tail j (not_lt.mp fun inside => outside ⟨⟨j, inside⟩, ?_⟩)
  rfl

/-- A trivial kernel of the leading columns, told of vectors that end in zeros. -/
theorem leading_kernel_iff {l : Type*} (bound : n ≤ m) (rows : l → Fin m) :
    (∀ v : Fin m → K, (∀ j : Fin m, n ≤ j → v j = 0) → (A *ᵥ v) ∘ rows = 0 → v = 0) ↔
      ∀ w, A.submatrix rows (Fin.castLE bound) *ᵥ w = 0 → w = 0 := by
  have restrict {v : Fin m → K} (tail : ∀ j : Fin m, n ≤ j → v j = 0) :
      A.submatrix rows (Fin.castLE bound) *ᵥ (v ∘ Fin.castLE bound) = (A *ᵥ v) ∘ rows := by
    funext i
    exact sum_leading bound (f := fun j => A (rows i) j * v j) fun j above => by rw [tail j above, mul_zero]
  constructor
  · intro regular w zero
    have tail (j : Fin m) (above : n ≤ j) : extend m w j = 0 := dif_neg (not_lt.mpr above)
    have back : extend m w ∘ Fin.castLE bound = w := funext (extend_castLE bound w)
    have vanish := regular _ tail (by rw [← restrict tail, back, zero])
    rw [← back, vanish]
    rfl
  · intro regular v tail kernel
    have zero := regular _ ((restrict tail).trans kernel)
    funext j
    rcases lt_or_ge (j : Nat) n with inside | above
    · exact congrFun zero ⟨j, inside⟩
    · exact tail j above

theorem leadingRegular_iff_det (bound : n ≤ m) :
    LeadingRegular A n ↔ (A.submatrix (Fin.castLE bound) (Fin.castLE bound)).det ≠ 0 := by
  rw [Ne, ← exists_mulVec_eq_zero_iff]
  push Not
  refine Iff.trans (forall₂_congr fun v tail => imp_congr_left ?_)
    ((leading_kernel_iff bound (Fin.castLE bound)).trans (forall_congr' fun w => not_imp_not.symm))
  exact ⟨fun zero => funext fun i => zero _ i.isLt, fun zero i below => congrFun zero ⟨i, below⟩⟩

end Leading

section Rows
variable {m : Nat} {A : Matrix (Fin m) (Fin m) K} {r s : Fin m} {row source : Fin m → K}

/-- `row` combines rows of `A` into one whose first `a` entries are those of the unit
row `r`, and takes rows from `b` on only as the unit row `r` does. -/
structure RowReduced (A : Matrix (Fin m) (Fin m) K) (a b : Nat) (r : Fin m) (row : Fin m → K) : Prop where
  cleared : ∀ c : Fin m, c < a → (row ᵥ* A) c = (1 : Matrix (Fin m) (Fin m) K) r c
  untouched : ∀ j : Fin m, b ≤ j → row j = (1 : Matrix (Fin m) (Fin m) K) r j

theorem RowReduced.start (A : Matrix (Fin m) (Fin m) K) (r : Fin m) :
    RowReduced A 0 0 r ((1 : Matrix (Fin m) (Fin m) K) r) where
  cleared c below := by omega
  untouched j _ := rfl

theorem RowReduced.weaken {a b b' : Nat} (reduced : RowReduced A a b r row) (le : b ≤ b') :
    RowReduced A a b' r row where
  cleared := reduced.cleared
  untouched j above := reduced.untouched j (le.trans above)

/-- Dividing the pivot row by its pivot. -/
theorem RowReduced.scale (reduced : RowReduced A r r r row) (pivot : (row ᵥ* A) r ≠ 0) :
    RowReduced A (r + 1) (r + 1) r (((row ᵥ* A) r)⁻¹ • row) where
  cleared c below := by
    rw [smul_vecMul, Pi.smul_apply, smul_eq_mul]
    by_cases last : c = r
    · subst last
      rw [inv_mul_cancel₀ pivot, one_apply_eq]
    · rw [reduced.cleared c (by omega), one_apply_ne (Ne.symm last), mul_zero]
  untouched j above := by
    have other : r ≠ j := by omega
    rw [Pi.smul_apply, reduced.untouched j (by omega), one_apply_ne other, smul_zero]

/-- Subtracting the multiple of a finished row that clears the next column. -/
theorem RowReduced.sub {b : Nat} (reduced : RowReduced A s b r row) (finished : RowReduced A b b s source)
    (below : s < b) (other : r ≠ s) : RowReduced A (s + 1) b r (row - (row ᵥ* A) s • source) where
  cleared c before := by
    rw [sub_vecMul, smul_vecMul, Pi.sub_apply, Pi.smul_apply, smul_eq_mul, finished.cleared c (by omega)]
    by_cases last : c = s
    · subst last
      rw [one_apply_eq, mul_one, sub_self, one_apply_ne other]
    · rw [one_apply_ne (Ne.symm last), mul_zero, sub_zero, reduced.cleared c (by omega)]
  untouched j above := by
    have apart : s ≠ j := by omega
    rw [Pi.sub_apply, Pi.smul_apply, reduced.untouched j above, finished.untouched j above,
      one_apply_ne apart, smul_zero, sub_zero]

theorem RowReduced.vecMul_eq {b : Nat} (reduced : RowReduced A m b r row) :
    row ᵥ* A = (1 : Matrix (Fin m) (Fin m) K) r :=
  funext fun c => reduced.cleared c c.isLt

/-- Without row exchanges the next pivot vanishes exactly when the next leading
block is singular. -/
theorem RowReduced.pivot_ne_zero_iff (reduced : RowReduced A r r r row) (regular : LeadingRegular A r) :
    (row ᵥ* A) r ≠ 0 ↔ LeadingRegular A (r + 1) := by
  have support (j : Fin m) (above : r + 1 ≤ (j : Nat)) : row j = 0 := by
    have apart : r ≠ j := by omega
    rw [reduced.untouched j (by omega), one_apply_ne apart]
  constructor
  · intro pivot v head rows
    have product : (row ᵥ* A) r * v r = 0 := by
      have swap := (dotProduct_mulVec row A v).symm
      have right : row ⬝ᵥ (A *ᵥ v) = 0 := by
        refine sum_eq_zero fun i _ => ?_
        by_cases below : (i : Nat) < r + 1
        · rw [rows i below, mul_zero]
        · rw [support i (by omega), zero_mul]
      rw [← right, ← swap, dotProduct, sum_eq_single r]
      · intro c _ other
        by_cases below : c < r
        · rw [reduced.cleared c below, one_apply_ne (Ne.symm other), zero_mul]
        · rw [head c (by omega), mul_zero]
      · simp
    have last : v r = 0 := (mul_eq_zero.mp product).resolve_left pivot
    refine regular v (fun j above => ?_) fun i below => rows i (by omega)
    by_cases same : j = r
    · rw [same, last]
    · exact head j (by omega)
  · intro next zero
    have bound := r.isLt
    rw [leadingRegular_iff_det bound] at next
    apply next
    rw [← exists_vecMul_eq_zero_iff]
    refine ⟨fun i => row (Fin.castLE bound i), ?_, ?_⟩
    · intro vanish
      have unit := congrFun vanish (Fin.last r)
      have diagonal := reduced.untouched r le_rfl
      rw [one_apply_eq] at diagonal
      exact one_ne_zero (diagonal.symm.trans unit)
    · funext c
      have column : (row ᵥ* A) (Fin.castLE bound c) = 0 := by
        by_cases same : Fin.castLE bound c = r
        · rw [same, zero]
        · have below : (Fin.castLE bound c : Nat) < r := by
            have apart : (c : Nat) ≠ r := fun equal => same (Fin.ext equal)
            simp only [Fin.val_castLE]
            omega
          rw [reduced.cleared _ below, one_apply_ne (Ne.symm same)]
      rw [Pi.zero_apply, ← column, vecMul, vecMul, dotProduct, dotProduct, ← sum_leading bound]
      · rfl
      · intro j above
        rw [support j above, zero_mul]

end Rows

section Progress
variable {m : Nat} {A L : Matrix (Fin m) (Fin m) K} {k : Fin m}

/-- `L` is the product of the first `k` clearing steps on `A`. -/
def Progress (A : Matrix (Fin m) (Fin m) K) (k : Nat) (L : Matrix (Fin m) (Fin m) K) : Prop :=
  ∀ r, RowReduced A k k r (L r)

theorem Progress.start (A : Matrix (Fin m) (Fin m) K) : Progress A 0 1 := RowReduced.start A

theorem Progress.next (progress : Progress A k L) (pivot : (L * A) k k ≠ 0) :
    Progress A (k + 1) (clear k (fun i => (L * A) i k) L) := by
  have scaled := (progress k).scale pivot
  intro r
  by_cases same : r = k
  · subst same
    have rows : clear r (fun i => (L * A) i r) L r = ((L r ᵥ* A) r)⁻¹ • L r := by
      funext j
      rw [clear, if_pos rfl, mul_comm]
      rfl
    rwa [rows]
  · have rows : clear k (fun i => (L * A) i k) L r = L r - (L r ᵥ* A) k • ((L k ᵥ* A) k)⁻¹ • L k := by
      funext j
      rw [clear, if_neg same, mul_comm, mul_comm (L k j)]
      rfl
    rw [rows]
    exact ((progress r).weaken (Nat.le_succ k)).sub scaled (Nat.lt_succ_self k) same

theorem Progress.finish (progress : Progress A m L) : L * A = 1 :=
  funext fun r => (progress r).vecMul_eq

theorem Progress.pivot_ne_zero (progress : Progress A k L) (regular : ∀ n, LeadingRegular A n) : (L * A) k k ≠ 0 :=
  ((progress k).pivot_ne_zero_iff (regular k)).mpr (regular (k + 1))

end Progress

section Pivoted
variable {m : Nat} {A L : Matrix (Fin m) (Fin m) K} {k : Nat}

/-- The leading columns of a square matrix are independent. -/
def ColumnsIndependent (A : Matrix (Fin m) (Fin m) K) (n : Nat) : Prop :=
  ∀ v : Fin m → K, (∀ j : Fin m, n ≤ j → v j = 0) → A *ᵥ v = 0 → v = 0

theorem ColumnsIndependent.mono {n' : Nat} (independent : ColumnsIndependent A n) (le : n' ≤ n) :
    ColumnsIndependent A n' :=
  fun v tail kernel => independent v (fun j above => tail j (le.trans above)) kernel

theorem LeadingRegular.independent (regular : LeadingRegular A n) : ColumnsIndependent A n :=
  fun v tail kernel => regular v tail fun i _ => congrFun kernel i

theorem columnsIndependent_iff_linearIndependent (bound : n ≤ m) :
    ColumnsIndependent A n ↔ LinearIndependent K fun j : Fin n => A.col (Fin.castLE bound j) :=
  (leading_kernel_iff bound id).trans
    ((injective_iff_map_eq_zero (A.submatrix id (Fin.castLE bound)).mulVecLin).symm.trans mulVec_injective_iff)

/-- Independent leading columns always have a regular leading block. -/
def PrefixRegular (A : Matrix (Fin m) (Fin m) K) : Prop :=
  ∀ (n : Nat) (bound : n ≤ m), LinearIndependent K (fun j : Fin n => A.col (Fin.castLE bound j)) →
    (A.submatrix (Fin.castLE bound) (Fin.castLE bound)).det ≠ 0

theorem prefixRegular_iff : PrefixRegular A ↔ ∀ n ≤ m, ColumnsIndependent A n → LeadingRegular A n := by
  refine forall₂_congr fun n bound => ?_
  rw [columnsIndependent_iff_linearIndependent bound, leadingRegular_iff_det bound]

/-- The product of `L` and `A` has unit columns below `k`, and `L` is regular. -/
structure PivotProgress (A : Matrix (Fin m) (Fin m) K) (k : Nat) (L : Matrix (Fin m) (Fin m) K) : Prop where
  regular : ∀ v, L *ᵥ v = 0 → v = 0
  cleared : ∀ c : Fin m, c < k → ∀ r, (L * A) r c = (1 : Matrix (Fin m) (Fin m) K) r c

theorem PivotProgress.start (A : Matrix (Fin m) (Fin m) K) : PivotProgress A 0 1 where
  regular v zero := by rwa [one_mulVec] at zero
  cleared c below := by omega

theorem PivotProgress.mulVec_eq (progress : PivotProgress A k L) {v : Fin m → K} (tail : ∀ j : Fin m, k ≤ j → v j = 0) :
    (L * A) *ᵥ v = v := by
  conv_rhs => rw [← one_mulVec v]
  funext r
  rw [mulVec, mulVec, dotProduct, dotProduct]
  refine sum_congr rfl fun c _ => ?_
  rcases lt_or_ge (c : Nat) k with below | above
  · rw [progress.cleared c below]
  · rw [tail c above, mul_zero, mul_zero]

theorem PivotProgress.independent (progress : PivotProgress A k L) : ColumnsIndependent A k := by
  intro v tail kernel
  rw [← progress.mulVec_eq tail, ← mulVec_mulVec, kernel, mulVec_zero]

/-- A column without a pivot depends on the columns before it. -/
theorem PivotProgress.dependent {k : Fin m} (progress : PivotProgress A k L)
    (zero : ∀ r : Fin m, k ≤ r → (L * A) r k = 0) : ¬ ColumnsIndependent A (k + 1) := by
  intro independent
  -- the column, whose entries from `k` on vanish, is the combination of the unit columns before it
  have fixed : (L * A) *ᵥ (L * A).col k = (L * A).col k := progress.mulVec_eq zero
  have product : (L * A) *ᵥ (Pi.single k 1 - (L * A).col k) = 0 := by
    rw [mulVec_sub, fixed, mulVec_single_one, sub_self]
  have kernel : A *ᵥ (Pi.single k 1 - (L * A).col k) = 0 := progress.regular _ (by rw [mulVec_mulVec, product])
  have vanish := independent _ (fun j above => ?_) kernel
  · have one := congrFun vanish k
    rw [Pi.sub_apply, Pi.single_eq_same, col_apply, zero k le_rfl, sub_zero] at one
    exact one_ne_zero one
  · have other : j ≠ k := by omega
    rw [Pi.sub_apply, Pi.single_eq_of_ne other, col_apply, zero j (by omega), sub_zero]

theorem PivotProgress.swap {k p : Fin m} (progress : PivotProgress A k L) (le : k ≤ p) :
    PivotProgress A k (L.submatrix (Equiv.swap k p) id) where
  regular v kernel := by
    refine progress.regular v (funext fun r => ?_)
    have entry := congrFun kernel (Equiv.swap k p r)
    simpa [mulVec, dotProduct] using entry
  cleared c below r := by
    have fixed : Equiv.swap k p c = c := Equiv.swap_apply_of_ne_of_ne (by omega) (by omega)
    have entry : (L.submatrix (Equiv.swap k p) id * A) r c = (L * A) (Equiv.swap k p r) c := by
      simp [mul_apply]
    rw [entry, progress.cleared c below]
    simp only [one_apply, Equiv.swap_apply_eq_iff, fixed]

/-- Scaling the pivot row and clearing its column from the other rows. -/
theorem PivotProgress.next {k : Fin m} (progress : PivotProgress A k L) (pivot : (L * A) k k ≠ 0) :
    PivotProgress A (k + 1) (clear k (fun i => (L * A) i k) L) where
  regular v kernel := by
    have image (i : Fin m) : clear k (fun i => (L * A) i k) (of fun i (_ : Unit) => (L *ᵥ v) i) i () = 0 := by
      rw [clear_eq_mul, mul_apply]
      have entry := congrFun kernel i
      rwa [clear_eq_mul, ← mulVec_mulVec] at entry
    have head : (L *ᵥ v) k = 0 := by
      have entry := image k
      rw [clear, if_pos rfl, mul_eq_zero] at entry
      exact entry.resolve_right (inv_ne_zero pivot)
    refine progress.regular v (funext fun i => ?_)
    rw [Pi.zero_apply, ← image i]
    exact (clear_of_zero (M := of fun i (_ : Unit) => (L *ᵥ v) i) (j := ()) head i).symm
  cleared c below r := by
    rw [← clear_mul]
    rcases Nat.lt_succ_iff_lt_or_eq.mp below with before | last
    · have other : k ≠ c := by omega
      rw [clear_of_zero, progress.cleared c before]
      rw [progress.cleared c before, one_apply_ne other]
    · rw [Fin.ext last, clear_pivot pivot]

theorem PivotProgress.finish (progress : PivotProgress A m L) : L * A = 1 :=
  funext fun r => funext fun c => progress.cleared c c.isLt r

end Pivoted
end Elimination
end Rarpar

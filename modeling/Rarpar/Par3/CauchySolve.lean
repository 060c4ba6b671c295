import Rarpar.Algebra.CauchyInverse
import Rarpar.Data.Fallible
import Rarpar.Par3.CauchyBlocks

namespace Rarpar.Par3
open GfSymbol List CharTwo

variable {size : FieldSize} {g n : Nat} [primitive : Primitive size.width g] {x y : Fin n → Field.Symbol size g} (field : Field size g)

/-! The matrix that `inverse_coefficients` writes down is the inverse of the matrix of the code. -/

theorem foldl_mul {α : Type*} (f : α → Field.Symbol size g) (items : List α) (start : Field.Symbol size g) :
    items.foldl (fun product item => field.mul product (f item)) start = start * (items.map f).prod := by
  induction items generalizing start with
  | nil => exact (mul_one start).symm
  | cons first rest ih => rw [foldl_cons, ih, field.mul_eq, map_cons, prod_cons, mul_assoc]

omit primitive in
theorem zipIdx_ofFn {α : Type*} (a : Fin n → α) : (ofFn a).zipIdx = ofFn fun i => (a i, i.val) := by
  refine ext_getElem (by simp) fun k first second => ?_
  simp

omit primitive in
theorem zip_ofFn {α β : Type*} (a : Fin n → α) (b : Fin n → β) :
    (ofFn a).zip (ofFn b) = ofFn fun i => (a i, b i) := by
  rw [ofFn_eq_map, ofFn_eq_map, zip_map', ofFn_eq_map]

/-- The loops over one set of coordinates. -/
theorem weights_eq {a : Fin n → Field.Symbol size g} (b : Fin n → Field.Symbol size g)
    (distinct : Function.Injective a) :
    weights field (ofFn a) (ofFn b) = .ok (ofFn (Cauchy.weight a b)) := by
  have numerator (i : Fin n) : (ofFn b).foldl (fun product other => field.mul product (a i + other)) 1 =
      ∏ k, (a i - b k) := by
    rw [foldl_mul, one_mul, map_ofFn, prod_ofFn]
    exact Finset.prod_congr rfl fun k _ => (sub_eq_add _ _).symm
  have denominator (i : Fin n) : ((ofFn a).zipIdx.filter fun entry => decide (entry.2 ≠ i.val)).foldl
      (fun product entry => field.mul product (a i + entry.1)) 1 = ∏ k ∈ Finset.univ.erase i, (a i - a k) := by
    rw [foldl_mul, one_mul, zipIdx_ofFn, ofFn_eq_map, filter_map, map_map, ← prod_toFinset _ ((nodup_finRange n).filter _),
      toFinset_filter, toFinset_finRange]
    refine Finset.prod_congr ?_ fun k _ => (sub_eq_add _ _).symm
    refine (Finset.filter_congr fun k _ => ?_).trans (Finset.filter_ne' _ i)
    simp only [Function.comp_apply, decide_eq_true_eq, ne_eq, Fin.val_inj]
  have nonzero (i : Fin n) : ∏ k ∈ Finset.univ.erase i, (a i - a k) ≠ 0 :=
    Finset.prod_ne_zero_iff.mpr fun k other => sub_ne_zero.mpr fun same => (Finset.mem_erase.mp other).1 (distinct same).symm
  refine (congrArg (mapM _) (zipIdx_ofFn a)).trans ?_
  refine mapM_ofFn fun i => ?_
  dsimp only
  rw [numerator, denominator, field.inv_eq, if_neg (nonzero i)]
  dsimp only
  rw [field.mul_eq]
  rfl

/-- The inverse exists for distinct coordinates that lie in the field. -/
theorem inverseCoefficients_eq {lost rows : Fin n → Nat}
    (columns : ∀ c, x c = column (lost c)) (lines : ∀ r, y r = row (rows r))
    (lostFits : ∀ c, lost c ≤ size.max) (rowsFit : ∀ r, rows r ≤ size.max)
    (distinctX : Function.Injective x) (distinctY : Function.Injective y) (apart : ∀ c r, x c + y r ≠ 0) :
    inverseCoefficients field (ofFn lost) (ofFn rows) = .ok
      (ofFn fun c => ofFn fun r => Cauchy.weight x y c * Cauchy.weight y x r * (x c + y r)⁻¹) := by
  have readX : (ofFn lost).mapM (fun index => ((Field.symbol index : Option _)).elim
      (.error Par3Error.singularSystem) Except.ok) = .ok (ofFn x) := by
    refine mapM_ofFn fun c => ?_
    rw [Field.symbol_eq (lostFits c), columns]
    rfl
  have readY : (ofFn rows).mapM (fun index =>
      if index ≤ size.max then ((Field.symbol (size.max - index) : Option _)).elim
        (.error Par3Error.singularSystem) Except.ok
      else .error .singularSystem) = .ok (ofFn y) := by
    refine mapM_ofFn fun r => ?_
    rw [if_pos (rowsFit r), Field.symbol_eq (Nat.sub_le _ _), lines]
    rfl
  unfold inverseCoefficients
  rw [if_neg (by simp), readX]
  dsimp only [bind, Except.bind]
  rw [readY]
  dsimp only
  rw [weights_eq field y distinctX]
  rw [weights_eq field x distinctY]
  dsimp only
  rw [zip_ofFn, zip_ofFn]
  refine mapM_ofFn fun c => mapM_ofFn fun r => ?_
  rw [field.inv_eq, if_neg (apart c r)]
  dsimp only
  rw [field.mul_eq, field.mul_eq]

/-- The matrix of the code times this matrix. -/
theorem inverseCoefficients_mul
    (distinctX : Function.Injective x) (distinctY : Function.Injective y) (apart : ∀ c r, x c + y r ≠ 0) (c c' : Fin n) :
    ∑ r, Cauchy.weight x y c * Cauchy.weight y x r * (x c + y r)⁻¹ * (x c' + y r)⁻¹ = if c = c' then 1 else 0 := by
  have different (c r : Fin n) : x c ≠ y r := fun same => apart c r (same ▸ add_self_eq_zero _)
  refine Eq.trans (Finset.sum_congr rfl fun r _ => ?_) (Cauchy.inverse_sum distinctX distinctY different c c')
  rw [sub_eq_add, sub_eq_add, add_comm (y r)]

end Rarpar.Par3

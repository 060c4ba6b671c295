import Rarpar.ReedSolomon.Rar3

namespace Rarpar
open GfSymbol Polynomial List

namespace Rar3RsCoder

/-- The monic polynomial with the first `n` powers of the generator as roots. -/
noncomputable def generator (n : Nat) : Byte[X] := ∏ i ∈ Finset.range n, (X - C (power (i + 1)))

theorem generator_succ (n : Nat) : generator (n + 1) = (X - C (power (n + 1))) * generator n := by
  rw [generator, Finset.prod_range_succ, mul_comm]
  rfl

theorem generator_monic (n : Nat) : (generator n).Monic := monic_prod_of_monic _ _ fun _ _ => monic_X_sub_C _

theorem generator_natDegree (n : Nat) : (generator n).natDegree = n := by
  rw [generator, natDegree_prod_of_monic _ _ fun _ _ => monic_X_sub_C _]
  simp

theorem generator_eval {n i : Nat} (below : i < n) : (generator n).eval (power (i + 1)) = 0 := by
  rw [generator, eval_prod]
  exact Finset.prod_eq_zero (Finset.mem_range.mpr below) (by simp)

/-- Each factor multiplied in keeps the coefficients below `parSize`. -/
theorem pnInit_eq {parSize k : Nat} (below : k < parSize) : pnInit parSize k = (generator parSize).coeff k := by
  have run (n : Nat) : ∀ k < parSize, (range' 1 n).foldl
      (fun p2 i => pnMult parSize (fun k => if k = 0 then gfExp i else if k = 1 then 1 else 0) p2)
      (fun k => if k = 0 then 1 else 0) k = (generator n).coeff k := by
    induction n with
    | zero =>
      intro k _
      simp [generator, coeff_one]
    | succ n ih =>
      intro k inside
      rw [range'_concat, foldl_append, foldl_cons, foldl_nil, pnMult_eq inside, generator_succ]
      cases k with
      | zero =>
        rw [Finset.sum_range_one, ih 0 inside, mul_coeff_zero]
        simp [gfExp_eq, add_comm, CharTwo.neg_eq]
      | succ k =>
        have split (f : Nat → Byte) (tail : ∀ i, 2 ≤ i → f i = 0) :
            ∑ i ∈ Finset.range (k + 1 + 1), f i = f 0 + f 1 := by
          rw [Finset.sum_range_succ', Finset.sum_range_succ', Finset.sum_eq_zero fun i _ => tail (i + 1 + 1) (by omega)]
          rw [zero_add, add_comm]
        rw [split, coeff_X_sub_C_mul, CharTwo.sub_eq_add]
        · simp only [if_true, Nat.one_ne_zero, if_false, Nat.sub_zero, Nat.add_sub_cancel, one_mul]
          rw [ih _ inside, ih k (by omega), gfExp_eq, add_comm 1 n, add_comm]
        · intro i above
          have first : i ≠ 0 := by omega
          have second : i ≠ 1 := by omega
          simp [first, second]
  exact run parSize k below

variable {parSize i : Nat}

theorem pnInit_eval (below : i < parSize) :
    ∑ j ∈ Finset.range parSize, pnInit parSize j * power (i + 1) ^ j = power (i + 1) ^ parSize := by
  have root := generator_eval below
  rw [eval_eq_sum_range, generator_natDegree, Finset.sum_range_succ] at root
  have lead : (generator parSize).coeff parSize = 1 := by
    have monic := generator_monic parSize
    rwa [Monic, leadingCoeff, generator_natDegree] at monic
  rw [lead, one_mul, CharTwo.add_eq_zero] at root
  rw [← root]
  refine Finset.sum_congr rfl fun j member => ?_
  rw [pnInit_eq (Finset.mem_range.mp member)]

/-- The register as a polynomial value. -/
def registerEval (parSize : Nat) (shiftReg : Nat → Byte) (x : Byte) : Byte :=
  ∑ j ∈ Finset.range parSize, shiftReg j * x ^ j

/-- At a root of the generator, one shift multiplies the register by the root and
adds the symbol at the top. -/
theorem shiftStep_eval (below : i < parSize) (shiftReg : Nat → Byte) (byte : Byte) :
    registerEval parSize (shiftStep parSize (pnInit parSize) shiftReg byte) (power (i + 1)) =
      power (i + 1) * registerEval parSize shiftReg (power (i + 1)) + byte * power (i + 1) ^ parSize := by
  obtain ⟨n, rfl⟩ : ∃ n, parSize = n + 1 := ⟨parSize - 1, by omega⟩
  set x : Byte := power (i + 1)
  set d := byte + shiftReg n
  have stage (j : Nat) : shiftStep (n + 1) (pnInit (n + 1)) shiftReg byte j * x ^ j =
      (if j = 0 then 0 else shiftReg (j - 1) * x ^ j) + d * (pnInit (n + 1) j * x ^ j) := by
    simp only [shiftStep, gfMult_eq, Nat.add_sub_cancel]
    split_ifs with zero
    · subst zero
      ring
    · ring
  have generated := pnInit_eval below
  rw [registerEval, Finset.sum_congr rfl fun j _ => stage j, Finset.sum_add_distrib, ← Finset.mul_sum, generated,
    Finset.sum_range_succ', registerEval, Finset.sum_range_succ, mul_add, Finset.mul_sum]
  simp only [Nat.add_eq_zero_iff, Nat.one_ne_zero, and_false, if_false, if_true, add_zero, Nat.add_sub_cancel]
  have shifted : ∑ j ∈ Finset.range n, shiftReg j * x ^ (j + 1) = ∑ j ∈ Finset.range n, x * (shiftReg j * x ^ j) :=
    Finset.sum_congr rfl fun j _ => by ring
  rw [shifted]
  ring

theorem encode_register (below : i < parSize) (data : List Byte) :
    registerEval parSize (data.foldl (shiftStep parSize (pnInit parSize)) fun _ => 0) (power (i + 1)) =
      power (i + 1) ^ parSize * data.foldl (fun sum byte => byte + power (i + 1) * sum) 0 := by
  induction data using reverseRecOn with
  | nil => simp [registerEval]
  | append_singleton front byte ih =>
    rw [foldl_append, foldl_append, foldl_cons, foldl_nil, foldl_cons, foldl_nil,
      shiftStep_eval below, ih]
    ring

/-- Every codeword has zero syndromes. -/
theorem syndrome_codeword {coder : Rar3RsCoder} (generated : coder.gxPol = pnInit coder.parSize) (data : List Byte)
    (below : i < coder.parSize) : syndrome (data ++ coder.encode data) i = 0 := by
  set x : Byte := power (i + 1) with hx
  set shiftReg := data.foldl (shiftStep coder.parSize (pnInit coder.parSize)) fun _ => 0 with register
  have parity : coder.encode data = (range coder.parSize).map fun k => shiftReg (coder.parSize - k - 1) := by
    rw [encode, generated]
  have horner (start : Byte) (tail : List Byte) : tail.foldl (fun sum byte => byte + x * sum) start =
      x ^ tail.length * start + tail.foldl (fun sum byte => byte + x * sum) 0 := by
    induction tail using reverseRecOn with
    | nil => simp
    | append_singleton front byte ih =>
      simp only [foldl_append, foldl_cons, foldl_nil, length_append, length_singleton]
      rw [ih]
      ring
  have top : (coder.encode data).foldl (fun sum byte => byte + x * sum) 0 =
      registerEval coder.parSize shiftReg x := by
    rw [Accumulate.foldl_horner, parity, length_map, length_range, registerEval,
      ← Finset.sum_range_reflect fun j => shiftReg j * x ^ j]
    refine Finset.sum_congr rfl fun k member => ?_
    have inside := Finset.mem_range.mp member
    rw [getD_eq_getElem _ _ (by simpa using inside), getElem_map, getElem_range, Nat.sub_right_comm]
  have length : (coder.encode data).length = coder.parSize := by simp [parity]
  simp only [syndrome, gfExp_eq, gfMult_eq]
  rw [foldl_append, horner, length, top, encode_register below, CharTwo.add_self_eq_zero]

end Rar3RsCoder
end Rarpar

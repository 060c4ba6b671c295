import Rarpar.ReedSolomon.Rar5Invert

namespace Rarpar
open Matrix Elimination List Finset GfSymbol DecodeApply

namespace Rar5RsCoder
variable {dataCount recCount missing words : Nat} {validFlags : List Bool} {row : Fin missing → Fin recCount}

/-- The missing data units, in order. -/
def missingRows (dataCount : Nat) (validFlags : List Bool) : List (Fin dataCount) :=
  (List.finRange dataCount).filter fun col => !valid validFlags col

/-- The valid recovery units, in order. -/
def validRecoveryRows (dataCount recCount : Nat) (validFlags : List Bool) : List (Fin recCount) :=
  (List.finRange recCount).filter fun rec => valid validFlags (dataCount + rec)

/-- What a decoding pass is given: present units as they are, and the next valid
recovery unit in place of each missing one. -/
def logicalUnits (validFlags : List Bool) (data : Fin dataCount → Region words)
    (recovery : Fin recCount → Region words) (dataNum : Fin dataCount) : Region words :=
  if valid validFlags dataNum then data dataNum
  else ((validRecoveryRows dataCount recCount validFlags).map recovery).getD
    ((missingRows dataCount validFlags).idxOf dataNum) 0

theorem take_flags (bound : dataCount ≤ validFlags.length) :
    validFlags.take dataCount = (finRange dataCount).map fun col : Fin dataCount => valid validFlags col := by
  apply ext_getElem
  · simp [bound]
  · intro i left right
    simp only [getElem_take, getElem_map, getElem_finRange, valid, Fin.val_cast]
    rw [getD_eq_getElem]

theorem drop_flags (length : validFlags.length = dataCount + recCount) :
    validFlags.drop dataCount = (finRange recCount).map fun rec : Fin recCount => valid validFlags (dataCount + rec) := by
  apply ext_getElem
  · simp [length]
  · intro i left right
    simp only [getElem_drop, getElem_map, getElem_finRange, valid, Fin.val_cast]
    rw [getD_eq_getElem]

theorem missingRows_length (bound : dataCount ≤ validFlags.length) :
    (missingRows dataCount validFlags).length = missingDataCount dataCount validFlags := by
  rw [missingDataCount, take_flags bound, countP_map, countP_eq_length_filter]
  rfl

theorem validRecoveryRows_length (length : validFlags.length = dataCount + recCount) :
    (validRecoveryRows dataCount recCount validFlags).length = validRecoveryCount dataCount validFlags := by
  rw [validRecoveryCount, drop_flags length, countP_map, countP_eq_length_filter]
  rfl

theorem key_injective {key : Fin missing → Fin dataCount} (keyed : missingRows dataCount validFlags = ofFn key) :
    Function.Injective key := by
  rw [← nodup_ofFn, ← keyed]
  exact (nodup_finRange _).filter _

theorem exists_eq_ofFn {α : Type*} {list : List α} {n : Nat} (length : list.length = n) :
    ∃ f : Fin n → α, list = ofFn f := by
  subst length
  exact ⟨list.get, (ofFn_get list).symm⟩

theorem ofNat_add_ne_zero {row col : Nat} (above : dataCount ≤ row) (below : col < dataCount) (bound : row ≤ gfSize) :
    (ofNat row + ofNat col : Word) ≠ 0 := by
  intro zero
  have small : row < 2 ^ 16 := by
    simp only [gfSize] at bound
    omega
  have same := (ofNat_inj small (by omega)).mp (CharTwo.add_eq_zero.mp zero)
  omega

/-- The Cauchy coefficients of the chosen recovery rows. -/
def cauchyRows (dataCount : Nat) (row : Fin missing → Fin recCount) : Matrix (Fin missing) (Fin dataCount) Word :=
  fun dest col => (GfSymbol.ofNat (dataCount + row dest) + GfSymbol.ofNat col)⁻¹

theorem newEncoder_eq (someData : 1 ≤ dataCount) (someRec : 1 ≤ recCount) (bound : dataCount + recCount ≤ gfSize) :
    newEncoder dataCount recCount = .ok (some ⟨cauchyRows dataCount id⟩) := by
  rw [newEncoder, if_neg (by omega), Gf.invCells_eq]
  · simp only [Nat.add_comm _ _]
    rfl
  · intro rec col
    exact ofNat_add_ne_zero (by omega) col.isLt (by omega)

theorem makeDecoderMatrix_eq (length : validFlags.length = dataCount + recCount)
    (bound : dataCount + recCount ≤ gfSize)
    (chosen : (validRecoveryRows dataCount recCount validFlags).take missing = ofFn row)
    (enough : missing ≤ (validRecoveryRows dataCount recCount validFlags).length) :
    makeDecoderMatrix dataCount validFlags missing = .ok (some (cauchyRows dataCount row)) := by
  have rows : (range' dataCount (validFlags.length - dataCount)).filter (valid validFlags) =
      (validRecoveryRows dataCount _ validFlags).map fun rec : Fin recCount => dataCount + (rec : Nat) := by
    rw [length, Nat.add_sub_cancel_left, List.range'_eq_map_range, ← List.map_coe_finRange_eq_range, List.map_map,
      filter_map]
    rfl
  rw [makeDecoderMatrix, scanRows_eq, rows, length_map, if_pos enough, ← map_take, chosen]
  simp only
  rw [Gf.invCells_eq]
  · refine congrArg (fun matrix => Except.ok (some matrix)) (funext fun dest => funext fun col => ?_)
    simp [cauchyRows]
  · intro dest col
    have entry : ((ofFn row).map fun rec : Fin recCount => dataCount + (rec : Nat)).getD dest 0 =
        dataCount + row dest := by simp
    rw [entry]
    exact ofNat_add_ne_zero (Nat.le_add_right _ _) col.isLt (by omega)

variable {key : Fin missing → Fin dataCount} {A : Matrix (Fin missing) (Fin dataCount) Word}
  {recovery : Fin recCount → Region words} {data : Fin dataCount → Region words}

theorem cauchyRows_regular (bound : dataCount + recCount ≤ gfSize)
    (rows : Function.Injective row) (keys : Function.Injective key) (n : Nat) :
    LeadingRegular ((cauchyRows dataCount row).submatrix id key) n := by
  simp only [gfSize] at bound
  have cauchy : (cauchyRows dataCount row).submatrix id key = of fun i j =>
      (ofNat (dataCount + row i) - ofNat (key j) : Word)⁻¹ := by
    ext i j
    simp [cauchyRows, CharTwo.sub_eq_add]
  rw [cauchy]
  refine Cauchy.leadingRegular ?_ ?_ ?_ n
  · intro i j same
    have equal := (ofNat_inj (by omega) (by omega)).mp same
    exact rows (Fin.ext (by omega))
  · intro i j same
    have equal := (ofNat_inj (by omega) (by omega)).mp same
    exact keys (Fin.ext equal)
  · intro i j
    rw [CharTwo.sub_eq_add]
    exact ofNat_add_ne_zero (Nat.le_add_right _ _) (key j).isLt (by simp only [gfSize]; omega)

/-- With the missing columns of `A` inverted by `L`, the folded inverse recovers the
missing entries from the present ones and the products `A *ᵥ x`. -/
theorem foldedInverse_mulVec {present : Fin dataCount → Bool}
    {L : Matrix (Fin missing) (Fin missing) Word}
    (inverse : L * A.submatrix id key = 1) (keys : Function.Injective key)
    (keyed : (finRange dataCount).filter (!present ·) = ofFn key) {x u : Fin dataCount → Word}
    (kept : ∀ col, present col = true → u col = x col) (filled : ∀ row, u (key row) = (A *ᵥ x) row) :
    (L * (unitRows key + presentPart present A (finRange dataCount))) *ᵥ u = x ∘ key := by
  have absent (col : Fin dataCount) : present col = false ↔ ∃ row, key row = col := by
    have member := congrArg (col ∈ ·) keyed
    simpa [mem_ofFn] using member
  have rest : (unitRows key + presentPart present A (finRange dataCount)) *ᵥ u =
      A.submatrix id key *ᵥ (x ∘ key) := by
    funext row
    have units : (unitRows key *ᵥ u) row = (A *ᵥ x) row := by
      rw [← filled row, mulVec, dotProduct]
      simp [unitRows]
    have reindex : (A.submatrix id key *ᵥ (x ∘ key)) row = ∑ col with present col = false, A row col * x col := by
      have image : (univ.filter fun col => present col = false) = univ.image key := by
        ext col
        simp [absent]
      rw [image, sum_image keys.injOn]
      rfl
    have fold : (presentPart present A (finRange dataCount) *ᵥ u) row =
        ∑ col with ¬ present col = false, A row col * x col := by
      rw [sum_filter, mulVec, dotProduct]
      refine sum_congr rfl fun col _ => ?_
      by_cases here : present col = true
      · simp [presentPart, here, kept col here]
      · simp [presentPart, here]
    rw [add_mulVec, Pi.add_apply, units, fold, reindex, mulVec, dotProduct,
      ← sum_filter_add_sum_filter_not univ fun col => present col = false]
    rw [add_assoc, CharTwo.add_self_eq_zero, add_zero]
  rw [← mulVec_mulVec, rest, mulVec_mulVec, inverse, one_mulVec]

theorem invertDecoderMatrix_eq
    (regular : ∀ n, LeadingRegular (A.submatrix id key) n) (keyed : missingRows dataCount validFlags = ofFn key) :
    ∃ L, L * A.submatrix id key = 1 ∧ invertDecoderMatrix validFlags A = .ok (some (L * (unitRows key +
      presentPart (fun col : Fin dataCount => valid validFlags col) A (finRange dataCount)))) := by
  obtain ⟨L, inverse, run⟩ := invertColumns_eq regular keyed [] rfl (Progress.start _)
  refine ⟨L, inverse, ?_⟩
  rw [← run, invertDecoderMatrix, scanRows_eq, show (finRange dataCount).filter _ = ofFn key from keyed, length_ofFn,
    if_pos le_rfl, take_of_length_le (by simp)]
  refine congrArg₂ _ (Matrix.one_mul A).symm ?_
  rw [Matrix.one_mul]
  funext row col
  simp [unitRows, presentPart]

/-- No pivot vanishes, so the decoder exists, and its rows are the folded inverse of
the Cauchy rows of the first valid recovery units. -/
theorem newDecoder_eq (someData : 1 ≤ dataCount) (someRec : 1 ≤ recCount) (bound : dataCount + recCount ≤ gfSize)
    (length : validFlags.length = dataCount + recCount) (lost : 1 ≤ missingDataCount dataCount validFlags)
    (enough : missingDataCount dataCount validFlags ≤ validRecoveryCount dataCount validFlags) :
    ∃ (key : Fin (missingDataCount dataCount validFlags) → Fin dataCount)
      (row : Fin (missingDataCount dataCount validFlags) → Fin recCount)
      (L : Matrix (Fin (missingDataCount dataCount validFlags)) (Fin (missingDataCount dataCount validFlags)) Word),
      missingRows dataCount validFlags = ofFn key ∧
      (∀ i : Fin _, (validRecoveryRows dataCount recCount validFlags)[(i : Nat)]? = some (row i)) ∧
      L * (cauchyRows dataCount row).submatrix id key = 1 ∧
      newDecoder dataCount recCount validFlags = .ok (some ⟨L * (unitRows key +
        presentPart (fun col => valid validFlags col) (cauchyRows dataCount row) (finRange dataCount))⟩) := by
  have demand : (missingRows dataCount validFlags).length = missingDataCount dataCount validFlags :=
    missingRows_length (by omega)
  have supply : ((validRecoveryRows dataCount recCount validFlags).take
      (missingDataCount dataCount validFlags)).length = missingDataCount dataCount validFlags := by
    rw [length_take, validRecoveryRows_length length, Nat.min_eq_left enough]
  obtain ⟨key, keyed⟩ := exists_eq_ofFn demand
  obtain ⟨row, chosen⟩ := exists_eq_ofFn supply
  have rows : Function.Injective row := by
    rw [← nodup_ofFn, ← chosen]
    exact ((nodup_finRange _).filter _).take
  obtain ⟨L, inverse, run⟩ := invertDecoderMatrix_eq (cauchyRows_regular bound rows (key_injective keyed)) keyed
  refine ⟨key, row, L, keyed, ?_, inverse, ?_⟩
  · intro i
    have entry := congrArg (·[(i : Nat)]?) chosen
    simpa [getElem?_take] using entry
  · rw [newDecoder, if_neg (by omega), if_neg (by omega), makeDecoderMatrix_eq length bound chosen (by rwa [validRecoveryRows_length length])]
    simp only [bind, Except.bind, run]
    rfl

theorem logicalUnits_present {col : Fin dataCount} (here : valid validFlags col = true) :
    logicalUnits validFlags data recovery col = data col := by
  rw [logicalUnits, if_pos here]

theorem logicalUnits_missing (keyed : missingRows dataCount validFlags = ofFn key) {i : Fin missing}
    {rec : Fin recCount} (chosen : (validRecoveryRows dataCount recCount validFlags)[(i : Nat)]? = some rec) :
    logicalUnits validFlags data recovery (key i) = recovery rec := by
  have member : key i ∈ missingRows dataCount validFlags := by
    rw [keyed]
    exact mem_ofFn.mpr ⟨i, rfl⟩
  have absent : valid validFlags (key i) = false := by
    simpa [missingRows] using member
  have position : (ofFn key).idxOf (key i) = i := by
    have entry := (nodup_ofFn.mpr (key_injective keyed)).idxOf_getElem i (by simp)
    simpa using entry
  rw [logicalUnits, if_neg (by simp [absent]), keyed, position, getD_eq_getElem?_getD, getElem?_map, chosen]
  rfl

/-- For every loss within the number of valid recovery units, elimination without
row exchanges meets no zero pivot, and one pass over the present units and the next
valid recovery units leaves the missing units in order. -/
theorem restores_missing_units (data : Fin dataCount → Region words) (someData : 1 ≤ dataCount)
    (someRec : 1 ≤ recCount) (bound : dataCount + recCount ≤ 65535)
    (length : validFlags.length = dataCount + recCount) (lost : 1 ≤ missingDataCount dataCount validFlags)
    (enough : missingDataCount dataCount validFlags ≤ validRecoveryCount dataCount validFlags) :
    ∃ encoder decoder, newEncoder dataCount recCount = .ok (some encoder) ∧
      newDecoder dataCount recCount validFlags = .ok (some decoder) ∧
      ∀ (staleRecovery : Fin recCount → Region words)
        (stale : Fin (missingDataCount dataCount validFlags) → Region words) (threads width : Nat),
        let units := logicalUnits validFlags data (encoder.pass data staleRecovery)
        ofFn (decoder.pass units stale) = (missingRows _ validFlags).map data ∧
        ofFn (decoder.applyUnits threads width units stale) = (missingRows _ validFlags).map data := by
  obtain ⟨key, row, L, keyed, chosen, inverse, decoder⟩ :=
    newDecoder_eq someData someRec bound length lost enough
  refine ⟨_, _, newEncoder_eq someData someRec bound, decoder, ?_⟩
  intro staleRecovery stale threads width units
  have restored (r) : ∑ d, (L * (unitRows key + presentPart (fun col => valid validFlags col)
      (cauchyRows _ row) (finRange dataCount))) r d • units d = data (key r) := by
    apply Region.word_injective
    funext w
    rw [Region.sum_smul_word]
    refine congrFun (foldedInverse_mulVec (x := fun d => (data d).word w) (u := fun d => (units d).word w)
      inverse (key_injective keyed) keyed ?_ ?_) r
    · intro col here
      simp only [units, logicalUnits_present here]
    · intro i
      simp only [units, logicalUnits_missing keyed (chosen i), pass_eq _ someData, Region.sum_smul_word]
      rfl
  constructor
  · rw [keyed, map_ofFn]
    exact congrArg ofFn (funext fun r => (pass_eq _ someData units stale r).trans (restored r))
  · rw [keyed, map_ofFn]
    exact congrArg ofFn (funext fun r => (applyDecodeMatrixGf16_eq threads width _ units stale r).trans (restored r))

theorem restores_first_of_two :
    missingDataCount 2 [false, true, true] = 1 ∧
    ∃ encoder decoder, newEncoder 2 1 = .ok (some encoder) ∧
      newDecoder 2 1 [false, true, true] = .ok (some decoder) ∧
      ∀ (staleRecovery : Fin 1 → Region 1)
        (stale : Fin (missingDataCount 2 [false, true, true]) → Region 1) (threads width : Nat),
        let data : Fin 2 → Region 1 := fun d => ⟨fun _ b => BitVec.ofNat 8 (3 * d + b)⟩
        let units := logicalUnits [false, true, true] data (encoder.pass data staleRecovery)
        ofFn (decoder.pass units stale) = (missingRows 2 [false, true, true]).map data ∧
        ofFn (decoder.applyUnits threads width units stale) = (missingRows 2 [false, true, true]).map data :=
  ⟨by decide, restores_missing_units _ (by decide) (by decide) (by decide) (by decide) (by decide) (by decide)⟩

end Rar5RsCoder
end Rarpar

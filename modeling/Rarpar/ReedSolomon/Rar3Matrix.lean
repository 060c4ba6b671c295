import Rarpar.ReedSolomon.Rar3Restore

namespace Rarpar
open GfSymbol List Option

/-- A coder with the buffers that its calls leave behind uncleared. -/
structure Rar3Scratch where
  coder : Rar3RsCoder
  synData : Nat → Byte
  eePol : Nat → Byte

namespace Rar3Scratch
open Rar3RsCoder

def new (parSize : Nat) : Option Rar3Scratch := (Rar3RsCoder.new parSize).map fun coder => ⟨coder, fun _ => 0, fun _ => 0⟩

/-- Only the first `parSize` entries of `result` are cleared and added to. -/
def pnMultInto (parSize : Nat) (p1 p2 result : Nat → Byte) : Nat → Byte :=
  (List.range parSize).foldl (pnRow parSize p1 p2) fun k => if k < parSize then 0 else result k

def decode (s : Rar3Scratch) (data : List Byte) (erasures : List Nat) : Rar3Scratch × List Byte × Bool :=
  let dataSize := data.length
  let parSize := s.coder.parSize
  if dataSize = 0 ∨ maxPar < dataSize ∨ parSize < erasures.length ∨ ∃ loc ∈ erasures, dataSize ≤ loc then (s, data, false)
  else
    let s := { s with synData := fun i => if i < parSize then syndrome data i else s.synData i }
    if ∀ i < parSize, s.synData i = 0 then (s, data, true)
    else
      let locator := s.coder.currentLocator dataSize erasures
      let s := { s with
        coder := { s.coder with locator := some locator }
        eePol := pnMultInto parSize locator.elPol s.synData s.eePol }
      let errCount := locator.errors.length
      if errCount ≤ parSize ∧ 0 < errCount then
        (s, locator.errors.foldl (correct parSize s.eePol) data, decide (errCount ≤ parSize))
      else (s, data, decide (errCount ≤ parSize))

/-- The coder after some calls, each with a block and its erasures. -/
def decodeAll (s : Rar3Scratch) (calls : List (List Byte × List Nat)) : Rar3Scratch :=
  calls.foldl (fun s call => (s.decode call.1 call.2).1) s

def unitBlock (total column : Nat) : List Byte := (List.replicate total 0).set column 1

/-- One column of the matrix. Only the erased positions of the unit block may change. -/
def matrixColumn (total : Nat) (erasures : List Nat) (state : Rar3Scratch × (Nat → Nat → Byte)) (column : Nat) :
    Option (Rar3Scratch × (Nat → Nat → Byte)) :=
  let (coder, block, ok) := state.1.decode (unitBlock total column) erasures
  if ok ∧ ∀ pos < total, pos ∉ erasures → block.getD pos 0 = if pos = column then 1 else 0 then
    some (coder, fun row => Function.update (state.2 row) column (block.getD (erasures.getD row 0) 0))
  else none

/-- A row for each erasure and a column for each position of the block. -/
def decodeMatrix (s : Rar3Scratch) (total : Nat) (erasures : List Nat) : Option (Nat → Nat → Byte) :=
  if total = 0 ∨ maxPar < total then none
  else
    let start := { s with coder := { s.coder with locator := none } }
    ((List.range total).foldlM (matrixColumn total erasures) (start, fun _ _ => 0)).map (·.2)

end Rar3Scratch

namespace Rar3RsCoder
open Rar3Scratch (unitBlock)
variable {parSize n : Nat} {F : List Byte → Byte}

/-! ### Linearity -/

/-- A value that is a fixed combination of the symbols of a block. -/
def Linear (n : Nat) (F : List Byte → Byte) : Prop :=
  ∃ w : Nat → Byte, ∀ block, block.length = n → F block = ∑ j ∈ Finset.range n, w j * block.getD j 0

theorem getD_unitBlock {total : Nat} (column : Nat) {pos : Nat} (inside : pos < total) :
    (unitBlock total column).getD pos 0 = if pos = column then 1 else 0 := by
  rw [unitBlock, getD_eq_getElem?_getD, getElem?_set]
  grind

/-- A linear value is known from the unit blocks. -/
theorem Linear.eq_units (linear : Linear n F) {block : List Byte} (length : block.length = n) :
    F block = ∑ j ∈ Finset.range n, F (unitBlock n j) * block.getD j 0 := by
  obtain ⟨w, weights⟩ := linear
  rw [weights block length]
  refine Finset.sum_congr rfl fun j member => congrArg (· * _) ?_
  rw [weights _ (by simp [unitBlock]), Finset.sum_congr rfl fun k inside =>
    congrArg (w k * ·) (getD_unitBlock j (Finset.mem_range.mp inside))]
  simp only [mul_ite, mul_one, mul_zero, Finset.sum_ite_eq', if_pos member]

theorem Linear.entry {p : Nat} (inside : p < n) : Linear n (·.getD p 0) :=
  ⟨fun j => if j = p then 1 else 0, fun block _ => by simp [inside]⟩

theorem Linear.syndrome (i : Nat) : Linear n (syndrome · i) :=
  ⟨fun j => position n j ^ (i + 1), fun block length => by
    simp only [syndrome_eq_sum, length, mul_comm _]⟩

theorem Linear.mul (linear : Linear n F) (c : Byte) : Linear n fun block => F block * c := by
  obtain ⟨w, weights⟩ := linear
  exact ⟨fun j => w j * c, fun block length => by simp only [weights block length, Finset.sum_mul, mul_right_comm]⟩

theorem Linear.add {G : List Byte → Byte} (first : Linear n F) (second : Linear n G) :
    Linear n fun block => F block + G block := by
  obtain ⟨w, weights⟩ := first
  obtain ⟨w', weights'⟩ := second
  exact ⟨fun j => w j + w' j, fun block length => by
    simp only [weights block length, weights' block length, add_mul, Finset.sum_add_distrib]⟩

theorem Linear.sum {ι : Type*} {F : ι → List Byte → Byte} (indices : List ι) (linear : ∀ i, Linear n (F i)) :
    Linear n fun block => (indices.map (F · block)).sum := by
  induction indices with
  | nil => exact ⟨fun _ => 0, by simp⟩
  | cons i rest ih =>
    exact (linear i).add ih

/-! ### The decoder without its state -/

variable {erasures : List Nat} {coder : Rar3RsCoder} {block : List Byte} (ee : Nat → Byte)

/-- The coefficient that the product of the locator and the syndromes has below `parSize`. -/
def product (elPol : Nat → Byte) (block : List Byte) (k : Nat) : Byte :=
  ((List.range (k + 1)).map fun i => syndrome block (k - i) * elPol i).sum

theorem evaluate_pnMult (elPol : Nat → Byte) (block : List Byte) (loc : Nat) :
    evaluate parSize (pnMult parSize elPol (syndrome block)) loc =
      ((range parSize).map fun j => product elPol block j * gfExp ((maxPar - loc) * j % maxPar)).sum := by
  rw [evaluate, Accumulate.foldl_add, zero_add]
  refine congrArg sum (map_congr_left fun j member => ?_)
  rw [pnMult_eq (mem_range.mp member), gfMult_eq, product, Accumulate.sum_map_range]
  simp only [mul_comm]

theorem length_correct (data : List Byte) (error : Nat × Byte) :
    (correct parSize ee data error).length = data.length := by
  simp only [correct]
  split
  · exact length_modify _ _ _
  · rfl

theorem length_foldl_correct (errors : List (Nat × Byte)) (data : List Byte) :
    (errors.foldl (correct parSize ee) data).length = data.length := by
  induction errors generalizing data with
  | nil => rfl
  | cons error rest ih => rw [foldl_cons, ih, length_correct]

/-- What the corrections add to a position. -/
theorem getD_foldl_correct (errors : List (Nat × Byte)) {data : List Byte} {p : Nat} (inside : p < data.length) :
    (errors.foldl (correct parSize ee) data).getD p 0 = data.getD p 0 + (errors.map fun error =>
      evaluate parSize ee error.1 *
        if error.1 + 1 ≤ data.length ∧ data.length - error.1 - 1 = p then gfExp (maxPar - gfLog error.2) else 0).sum := by
  induction errors generalizing data with
  | nil => simp
  | cons error rest ih =>
    rw [foldl_cons, ih (length_correct ee data error ▸ inside), length_correct, map_cons, sum_cons, ← add_assoc]
    congr 1
    simp only [correct, gfMult_eq]
    split
    · by_cases here : data.length - error.1 - 1 = p
      · simp_all
      · simp_all
    · simp_all

/-- The block with the corrections of a new locator, whatever its syndromes. -/
def corrected (parSize : Nat) (erasures : List Nat) (block : List Byte) : List Byte :=
  let locator := buildLocator parSize block.length erasures
  locator.errors.foldl (correct parSize (pnMult parSize locator.elPol (syndrome block))) block

theorem linear_corrected (parSize : Nat) (erasures : List Nat) {p : Nat} (inside : p < n) :
    Linear n fun block => (corrected parSize erasures block).getD p 0 := by
  obtain ⟨w, weights⟩ := (Linear.entry inside).add (.sum (buildLocator parSize n _).errors fun error =>
    .mul (.sum (range parSize) fun j => .mul (.sum (range (j + 1)) fun i =>
      .mul (.syndrome (j - i)) _) _)
      (if error.1 + 1 ≤ n ∧ n - error.1 - 1 = p then gfExp _ else 0))
  refine ⟨w, fun block length => ?_⟩
  simp only [corrected, getD_foldl_correct _ _ (length ▸ inside), evaluate_pnMult, length]
  exact weights block length

/-- Zero syndromes correct nothing, so the early return changes no result. -/
theorem corrected_of_zero (zero : ∀ i < parSize, syndrome block i = 0) : corrected parSize erasures block = block := by
  have none (elPol : Nat → Byte) (loc : Nat) : evaluate parSize (pnMult parSize elPol (syndrome block)) loc = 0 := by
    rw [evaluate, Accumulate.foldl_add, zero_add]
    refine sum_eq_zero fun value member => ?_
    obtain ⟨j, below, rfl⟩ := mem_map.mp member
    have below := mem_range.mp below
    rw [pnMult_eq below, gfMult_eq, Finset.sum_eq_zero fun i _ => by rw [zero _ (by omega), mul_zero], zero_mul]
  refine ext_getElem (length_foldl_correct _ _ _) fun p h inside => ?_
  rw [← getD_eq_getElem _ 0 h, corrected, getD_foldl_correct _ _ inside]
  simp [none, inside]

/-- What a new coder makes of a block. -/
def decoded (parSize : Nat) (block : List Byte) (erasures : List Nat) : List Byte × Bool :=
  if block.length = 0 ∨ maxPar < block.length ∨ parSize < erasures.length ∨ ∃ loc ∈ erasures, block.length ≤ loc then
    (block, false)
  else if (∀ i < parSize, syndrome block i = 0) ∨ (buildLocator parSize block.length erasures).errors.length ≤ parSize then
    (corrected parSize erasures block, true)
  else (block, false)

theorem Consistent.decode_eq (consistent : Consistent parSize coder) (block : List Byte) (erasures : List Nat) :
    (coder.decode block erasures).2 = decoded parSize block erasures := by
  simp only [Rar3RsCoder.decode, decoded, consistent.size, consistent.currentLocator_eq]
  split
  · rfl
  · split
    · rename_i zero
      rw [if_pos (.inl zero), corrected_of_zero zero]
    · rename_i nonzero
      by_cases few : (buildLocator parSize block.length erasures).errors.length ≤ parSize
      · simp only [few, or_true, if_true, true_and, decide_true, corrected]
        split_ifs with none
        · rfl
        · rw [eq_nil_of_length_eq_zero (Nat.eq_zero_of_not_pos none)]
          rfl
      · simp [few, nonzero]

end Rar3RsCoder

namespace Rar3Scratch
open Rar3RsCoder
variable {parSize total : Nat} {erasures : List Nat}

/-! ### The buffers -/

theorem correct_congr {ee ee' : Nat → Byte} (same : ∀ k < parSize, ee k = ee' k) : correct parSize ee = correct parSize ee' := by
  have evaluated : evaluate parSize ee = evaluate parSize ee' := by
    funext loc
    exact foldl_ext _ _ _ fun n j member => by rw [same j (mem_range.mp member)]
  funext data error
  simp only [correct, evaluated]

/-- Nothing that an earlier call left in the buffers is read. -/
theorem decode_coder (s : Rar3Scratch) (data : List Byte) (erasures : List Nat) :
    ((s.decode data erasures).1.coder, (s.decode data erasures).2) = s.coder.decode data erasures := by
  have written : (∀ i < s.coder.parSize, (if i < s.coder.parSize then syndrome data i else s.synData i) = 0) ↔
      ∀ i < s.coder.parSize, syndrome data i = 0 :=
    forall₂_congr fun i below => by rw [if_pos below]
  have ee (elPol : Nat → Byte) : correct s.coder.parSize (pnMultInto s.coder.parSize elPol
      (fun i => if i < s.coder.parSize then syndrome data i else s.synData i) s.eePol) =
      correct s.coder.parSize (pnMult s.coder.parSize elPol (syndrome data)) := by
    refine correct_congr fun k below => ?_
    rw [pnMultInto, foldl_pnRow below, if_pos below, zero_add, pnMult_eq below]
    exact Finset.sum_congr rfl fun i _ => by rw [if_pos (by omega)]
  simp only [decode, Rar3RsCoder.decode, written, ee]
  split
  · rfl
  · split
    · rfl
    · split <;> rfl

theorem decode_eq {s : Rar3Scratch} (consistent : Consistent parSize s.coder) (data : List Byte) (erasures : List Nat) :
    (s.decode data erasures).2 = decoded parSize data erasures ∧ Consistent parSize (s.decode data erasures).1.coder := by
  have same := s.decode_coder data erasures
  rw [show (s.decode data _).1.coder = (s.coder.decode data _).1 from congrArg Prod.fst same,
    ← consistent.decode_eq, ← congrArg Prod.snd same]
  exact ⟨rfl, consistent.decode data _⟩

theorem consistent_decodeAll {s : Rar3Scratch} (consistent : Consistent parSize s.coder) (calls : List (List Byte × List Nat)) :
    Consistent parSize (s.decodeAll calls).coder := by
  induction calls generalizing s with
  | nil => exact consistent
  | cons call rest ih => exact ih (decode_eq consistent call.1 call.2).2

/-! ### The matrix -/

/-- Every column that was accepted holds the unit block's decoding. -/
theorem foldlM_matrixColumn {columns : List Nat} {state result : Rar3Scratch × (Nat → Nat → Byte)}
    (consistent : Consistent parSize state.1.coder)
    (ran : columns.foldlM (matrixColumn total erasures) state = some result) :
    (∀ column ∈ columns, (decoded parSize (unitBlock total column) erasures).2 ∧ ∀ pos < total, pos ∉ erasures →
      (decoded parSize (unitBlock total column) erasures).1.getD pos 0 = if pos = column then 1 else 0) ∧
    ∀ row column, result.2 row column = if column ∈ columns then
      (decoded parSize (unitBlock total column) erasures).1.getD (erasures.getD row 0) 0 else state.2 row column := by
  induction columns generalizing state with
  | nil =>
    cases ran
    simp
  | cons first rest ih =>
    obtain ⟨next, stepped, ran⟩ := bind_eq_some_iff.mp ran
    have decoding := decode_eq consistent (unitBlock total first) erasures
    simp only [matrixColumn, decoding.1, ite_none_right_eq_some, some.injEq] at stepped
    obtain ⟨accepted, rfl⟩ := stepped
    obtain ⟨later, entries⟩ := ih decoding.2 ran
    refine ⟨forall_mem_cons.mpr ⟨accepted, later⟩, fun row column => ?_⟩
    rw [entries]
    grind [Function.update_apply]

/-- A unit block is no codeword, so its columns are accepted only while the roots fit the parity. -/
theorem decoded_unit {column : Nat} (positive : 0 < parSize) (inside : column < total)
    (accepted : (decoded parSize (unitBlock total column) erasures).2) {block : List Byte} (length : block.length = total) :
    decoded parSize block erasures = (corrected parSize erasures block, true) ∧ ∀ loc ∈ erasures, loc < total := by
  have units : (unitBlock total column).length = total := by simp [unitBlock]
  have nonzero : syndrome (unitBlock total column) 0 ≠ 0 := by
    rw [syndrome_eq_sum, units, Finset.sum_congr rfl fun k below =>
      congrArg (· * _) (getD_unitBlock column (Finset.mem_range.mp below))]
    simp [inside, position, power_ne_zero]
  simp only [decoded, length, units] at accepted ⊢
  split at accepted
  · cases accepted
  · rename_i shape
    rw [if_neg shape]
    split at accepted
    · rename_i fits
      rw [if_pos (.inr (fits.resolve_left fun zero => nonzero (zero 0 positive)))]
      push Not at shape
      exact ⟨rfl, shape.2.2.2⟩
    · cases accepted

/-- A matrix is the decoder of its erasures on every block, and a coder that was used
before decodes as a new one. -/
theorem decode_eq_matrix_and_fresh {fresh : Rar3Scratch} (made : new parSize = some fresh)
    (calls : List (List Byte × List Nat)) (erasures : List Nat) :
    (∀ block, ((fresh.decodeAll calls).decode block erasures).2 = (fresh.decode block erasures).2) ∧
    ∀ total matrix, (fresh.decodeAll calls).decodeMatrix total erasures = some matrix →
      ∀ block, block.length = total →
        ∃ restored, ((fresh.decodeAll calls).decode block erasures).2 = (restored, true) ∧ restored.length = total ∧
          (∀ row < erasures.length, restored.getD (erasures.getD row 0) 0 =
            ∑ column ∈ Finset.range total, matrix row column * block.getD column 0) ∧
          ∀ pos ∉ erasures, restored.getD pos 0 = block.getD pos 0 := by
  obtain ⟨coder, coderMade, rfl⟩ := map_eq_some_iff.mp made
  have consistent : Consistent parSize coder := Reachable.consistent (.fresh coderMade)
  have after := consistent_decodeAll (s := ⟨coder, fun _ => 0, fun _ => 0⟩) consistent calls
  refine ⟨fun block => (decode_eq after block _).1.trans (decode_eq consistent block _).1.symm,
    fun total matrix found block length => ?_⟩
  unfold decodeMatrix at found
  split_ifs at found
  · rename_i shape
    obtain ⟨result, ran, rfl⟩ := map_eq_some_iff.mp found
    obtain ⟨accepted, entries⟩ := foldlM_matrixColumn ⟨after.positive, after.size, after.generated, by simp⟩ ran
    have first : 0 < total := by omega
    have shaped {block : List Byte} (length : block.length = total) :=
      decoded_unit after.positive first (accepted 0 (mem_range.mpr first)).1 length
    have units (column : Nat) := (@shaped (unitBlock total column) (by simp [unitBlock])).1
    refine ⟨corrected parSize _ block, (decode_eq after block _).1.trans (shaped length).1,
      (length_foldl_correct _ _ block).trans length, fun row below => ?_, fun pos absent => ?_⟩
    · have inside : erasures.getD row 0 < total := by
        rw [getD_eq_getElem _ _ below]
        exact (shaped length).2 _ (getElem_mem below)
      rw [(linear_corrected parSize _ inside).eq_units length]
      refine Finset.sum_congr rfl fun column member => ?_
      rw [entries, if_pos (mem_range.mpr (Finset.mem_range.mp member)), units]
    · by_cases inside : pos < total
      · have unit : ∀ column ∈ Finset.range total, (corrected parSize erasures _).getD pos 0 =
            if pos = column then 1 else 0 := fun column member => by
          rw [← (accepted column (mem_range.mpr (Finset.mem_range.mp member))).2 pos inside absent, units]
        rw [(linear_corrected parSize _ inside).eq_units length,
          Finset.sum_congr rfl fun column member => congrArg (· * _) (unit column member)]
        simp [inside]
      · have long : (corrected parSize erasures block).length = total := (length_foldl_correct _ _ block).trans length
        rw [getD_eq_default _ _ (by omega), getD_eq_default _ _ (by omega)]

/-- Position 1 of three is rebuilt by one parity symbol, after a call with another length. -/
theorem decode_eq_matrix_of_three : ∃ fresh, new 1 = some fresh ∧ ∃ matrix,
    (fresh.decodeAll [([1, 2], [0])]).decodeMatrix 3 [1] = some matrix ∧
    ∃ restored, ((fresh.decodeAll [([1, 2], [0])]).decode [5, 0, 7] [1]).2 = (restored, true) ∧
      restored.getD 1 0 = ∑ column ∈ Finset.range 3, matrix 0 column * ([5, 0, 7] : List Byte).getD column 0 := by
  have made : new 1 = some ⟨⟨1, pnInit 1, none⟩, fun _ => 0, fun _ => 0⟩ := rfl
  obtain ⟨matrix, found⟩ := isSome_iff_exists.mp (show ((decodeAll ⟨⟨1, pnInit 1, none⟩, fun _ => 0, fun _ => 0⟩
    [([1, 2], [0])]).decodeMatrix 3 [1]).isSome by decide +kernel)
  obtain ⟨restored, returned, -, rows, -⟩ := (decode_eq_matrix_and_fresh made [([1, 2], [0])] [1]).2 3 matrix found [5, 0, 7] rfl
  exact ⟨_, made, matrix, found, restored, returned, rows 0 (by decide)⟩

end Rar3Scratch
end Rarpar

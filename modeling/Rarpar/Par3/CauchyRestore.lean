import Rarpar.Par3.CauchyDecoder
import Rarpar.Par3.CauchySolve

namespace Rarpar.Par3
open GfSymbol Decoder List Option

variable {size : FieldSize} {g : Nat} {geometry : Geometry}

/-- A block as an encoder saw it. -/
def original (geometry : Geometry) (offered : List (Nat × List UInt8)) (i : Nat) : List UInt8 :=
  geometry.padded ((heard geometry offered i).getD [])

/-- Whatever a decoder heard of is what the encoder saw or wrote. -/
structure Faithful (geometry : Geometry) (lost rows : List Nat) (offered : List (Nat × List UInt8)) (written : List IndexedBlock)
    (calls : List Call) : Prop where
  inputs : ∀ i < geometry.inputBlocks, i ∉ lost → ∀ data, heard geometry (inputsOf calls) i = some data →
    geometry.padded data = original geometry offered i
  recoveries : ∀ r ∈ rows, ∀ data, heard geometry (recoveriesOf calls) r = some data → ⟨r, geometry.padded data⟩ ∈ written

/-- A surviving input block or a chosen recovery block was not supplied. -/
def Missing (geometry : Geometry) (lost rows : List Nat) (calls : List Call) : Prop :=
  (∃ i < geometry.inputBlocks, i ∉ lost ∧ heard geometry (inputsOf calls) i = none) ∨
    ∃ r ∈ rows, heard geometry (recoveriesOf calls) r = none

theorem ofBytes_nil {n : Nat} : (Block.ofBytes [] : Block size g n) = 0 := by
  funext i
  cases size <;> rfl

theorem blockOf_eq {n : Nat} (data : Option (List UInt8)) : (blockOf data : Block size g n) = Block.ofBytes (data.getD []) := by
  cases data with
  | none => exact ofBytes_nil.symm
  | some data => rfl

theorem toBytes_blockOf (valid : geometry.Valid size) (offered : List (Nat × List UInt8)) (i : Nat) :
    (blockOf (heard geometry offered i) : Block size g (geometry.symbols size)).toBytes = original geometry offered i := by
  rw [blockOf_eq, original, toBytes_ofBytes_padded valid]
  cases known : heard geometry offered i with
  | none => exact Nat.zero_le _
  | some data => exact heard_length known

/-- In a sum counted twice except for the lost blocks, the lost blocks remain. -/
theorem sum_lost {n count k : Nat} {lost : Fin n → Nat} (f : Nat → Block size g k) (distinct : Function.Injective lost)
    (inside : ∀ c, lost c < count) :
    (∑ i ∈ Finset.range count, if i ∈ ofFn lost then 0 else f i) + ∑ i ∈ Finset.range count, f i = ∑ c, f (lost c) := by
  have pair (i : Nat) : ((if i ∈ ofFn lost then 0 else f i) + f i) = if i ∈ ofFn lost then f i else 0 := by
    split
    · exact zero_add _
    · funext j
      exact add_self (f i j)
  rw [← Finset.sum_add_distrib, Finset.sum_congr rfl fun i _ => pair i, ← Finset.sum_filter]
  refine Eq.trans ?_ (Finset.sum_image (fun c _ c' _ same => distinct same))
  refine Finset.sum_congr ?_ fun _ _ => rfl
  ext i
  grind

section Solve
variable [primitive : Primitive size.width g]

/-- The unknowns and equations of one solve. -/
structure System (size : FieldSize) (geometry : Geometry) (n : Nat) where
  lost : Fin n → Nat
  rows : Fin n → Nat
  lostDistinct : Function.Injective lost
  rowsDistinct : Function.Injective rows
  lostInside : ∀ c, lost c < geometry.inputBlocks
  rowsInside : ∀ r, rows r < geometry.firstRecovery + geometry.recoveryBlocks

namespace System
variable {n : Nat} (system : System size geometry n) (valid : geometry.Valid size)

def x (c : Fin n) : Field.Symbol size g := column (system.lost c)

def y (r : Fin n) : Field.Symbol size g := row (system.rows r)

/-- The entry of the inverse matrix. -/
def inverse (c r : Fin n) : Field.Symbol size g :=
  Cauchy.weight system.x system.y c * Cauchy.weight system.y system.x r * (system.x c + system.y r)⁻¹

/-- What a solve makes of the syndromes. -/
def rebuilt (calls : List Call) (c : Fin n) : Block size g (geometry.symbols size) :=
  ∑ r, (system.inverse c r : Field.Symbol size g) • syndrome geometry (List.ofFn system.lost) calls (system.rows r)

include valid

omit primitive in
theorem lost_le (c : Fin n) : system.lost c ≤ size.max := by
  have inside := system.lostInside c
  have total := valid.total
  omega

omit primitive in
theorem rows_le (r : Fin n) : system.rows r ≤ size.max := by
  have chosen := system.rowsInside r
  have total := valid.total
  omega

omit primitive in
theorem x_injective : Function.Injective (system.x : Fin n → Field.Symbol size g) := by
  intro c c' same
  have width := size.max_lt
  have first := system.lost_le valid c
  have second := system.lost_le valid c'
  exact system.lostDistinct ((ofNat_inj (by omega) (by omega)).mp same)

omit primitive in
theorem y_injective : Function.Injective (system.y : Fin n → Field.Symbol size g) := by
  intro r r' same
  have width := size.max_lt
  have first := system.rows_le valid r
  have second := system.rows_le valid r'
  have equal := (ofNat_inj (by omega) (by omega)).mp same
  exact system.rowsDistinct (by omega)

omit primitive in
theorem apart (c r : Fin n) : (system.x c + system.y r : Field.Symbol size g) ≠ 0 :=
  valid.column_add_row_ne_zero (system.lostInside c) (system.rowsInside r)

theorem inverseCoefficients_eq (field : Field size g) : inverseCoefficients field (ofFn system.lost) (ofFn system.rows) =
    .ok (ofFn fun c => ofFn (system.inverse c)) :=
  Par3.inverseCoefficients_eq field (fun _ => rfl) (fun _ => rfl) (system.lost_le valid) (system.rows_le valid)
    (system.x_injective valid) (system.y_injective valid) (system.apart valid)

/-- Rows that hold sums over the unknowns give the unknowns back. -/
theorem solves {k : Nat} (unknown : Fin n → Block size g k) (c : Fin n) :
    ∑ r, (system.inverse c r : Field.Symbol size g) •
      ∑ c', (coefficient (system.lost c') (system.rows r) : Field.Symbol size g) • unknown c' = unknown c := by
  have product := inverseCoefficients_mul (system.x_injective valid (g := g)) (system.y_injective valid) (system.apart valid) c
  calc _ = ∑ c', (∑ r, (system.inverse c r : Field.Symbol size g) * coefficient _ (system.rows r)) • unknown c' := by
        simp only [Finset.smul_sum, Finset.sum_smul, smul_smul]
        exact Finset.sum_comm
    _ = ∑ c', (if c = c' then (1 : Field.Symbol size g) else 0) • unknown c' :=
        Finset.sum_congr rfl fun c' _ => congrArg (· • unknown c') (product c')
    _ = unknown c := by simp

end System

/-- The fold of `solve` over one column. -/
theorem foldl_mulAcc (field : Field size g) {n k : Nat} (factors : Fin n → Field.Symbol size g) (blocks : Fin n → Block size g k) :
    ((ofFn factors).zip (ofFn blocks)).foldl (fun data entry => field.mulAcc data entry.2 entry.1) 0 =
      ∑ r, factors r • blocks r := by
  have step (items : List (Fin n)) (start : Block size g k) :
      (items.map fun r => (factors r, blocks r)).foldl (fun data entry => field.mulAcc data entry.2 entry.1) start =
        start + (items.map fun r => factors r • blocks r).sum := by
    induction items generalizing start with
    | nil => exact (add_zero start).symm
    | cons first rest ih => rw [map_cons, foldl_cons, ih, field.mulAcc_eq, map_cons, sum_cons, add_assoc]
  rw [zip_ofFn, ofFn_eq_map, step, zero_add, ← ofFn_eq_map, sum_ofFn]

variable {n : Nat} (system : System size geometry n) (valid : geometry.Valid size) {calls : List Call}
  {s : Decoder size g geometry} (holds : s.Holds (List.ofFn system.lost) (List.ofFn system.rows) calls)
include valid holds

omit valid in
/-- The two searches of `solve` find nothing exactly when nothing is missing. -/
theorem nothing_unseen : ((range geometry.inputBlocks).find? (!s.seenInputs ·) = none ∧ (range s.rows.length).find? (!s.seenRows ·) = none) ↔
    ¬ Missing geometry (ofFn system.lost) (ofFn system.rows) calls := by
  rw [Missing, not_or, find?_eq_none, find?_eq_none, holds.sameRows]
  refine and_congr ?_ ?_
  · simp only [mem_range, not_exists, not_and]
    refine forall₂_congr fun i inside => ?_
    rw [holds.seenInputs i inside]
    by_cases gone : i ∈ ofFn system.lost <;> simp [gone, ← isSome_iff_ne_none]
  · simp only [forall_mem_iff_getElem, not_exists, not_and, length_range, getElem_range]
    refine forall₂_congr fun k inside => ?_
    rw [holds.seenRows k _ (getElem?_eq_getElem inside)]
    simp [← isSome_iff_ne_none]

/-- What `solve` returns once everything was supplied. -/
theorem solve_eq (positive : 0 < n) (complete : ¬ Missing geometry (ofFn system.lost) (ofFn system.rows) calls) :
    s.solve = .ok (ofFn fun c => ⟨system.lost c, (system.rebuilt calls c : Block size g _).toBytes⟩) := by
  obtain ⟨allInputs, allRows⟩ := (nothing_unseen system holds).mpr complete
  unfold solve
  rw [allInputs, allRows, holds.sameLost, holds.sameRows, system.inverseCoefficients_eq valid, holds.syndromes, length_ofFn,
    if_neg (by omega)]
  refine congrArg Except.ok ?_
  rw [zip_ofFn, map_ofFn, map_ofFn]
  refine congrArg ofFn (funext fun c => ?_)
  exact congrArg (IndexedBlock.mk _ ∘ Block.toBytes) (foldl_mulAcc s.field _ _)

omit valid in
/-- A block that is missing is found to be missing. -/
theorem solve_missing (positive : 0 < n) (missing : Missing geometry (ofFn system.lost) (ofFn system.rows) calls) :
    ∃ e, s.solve = .error e := by
  unfold solve
  rw [holds.sameLost, length_ofFn, if_neg (by omega)]
  split
  · exact ⟨_, rfl⟩
  rename_i allInputs
  split
  · exact ⟨_, rfl⟩
  rename_i allRows
  exact absurd missing ((nothing_unseen system holds).mp ⟨allInputs, allRows⟩)

omit holds in
/-- The blocks the encoder saw. -/
theorem rebuilt_eq {offered : List (Nat × List UInt8)} {encoder : Encoder size g geometry} (encoded : encoder.Holds offered)
    (complete : ¬ Missing geometry (ofFn system.lost) (ofFn system.rows) calls)
    (faithful : Faithful geometry (ofFn system.lost) (ofFn system.rows) offered encoder.finish calls) (c : Fin n) :
    (system.rebuilt calls c : Block size g (geometry.symbols size)) = blockOf (heard geometry offered (system.lost c)) := by
  obtain ⟨inputs, recoveries⟩ := not_or.mp complete
  let term (r i : Nat) : Block size g (geometry.symbols size) :=
    (coefficient i r : Field.Symbol size g) • blockOf (heard geometry offered i)
  have shares (r i : Nat) (inside : i ∈ Finset.range geometry.inputBlocks) :
      (share _ (ofFn system.lost) calls r i : Block size g _) = if i ∈ ofFn system.lost then 0 else term r i := by
    unfold share
    split_ifs with present
    · rfl
    · have inside := Finset.mem_range.mp inside
      obtain ⟨data, known⟩ := ne_none_iff_exists'.mp fun unknown => inputs ⟨i, inside, present, unknown⟩
      have same := faithful.inputs i inside present data known
      refine congrArg (HSMul.hSMul _) ?_
      rw [known, blockOf_eq, blockOf_eq, getD_some, ← ofBytes_padded _ data, same]
      exact ofBytes_padded _ _
  have syndromes (r : Fin n) : (syndrome geometry (ofFn system.lost) calls (system.rows r) : Block size g _) =
      ∑ c', term (system.rows r) (system.lost c') := by
    have member : system.rows r ∈ ofFn system.rows := mem_ofFn.mpr ⟨r, rfl⟩
    obtain ⟨data, known⟩ := ne_none_iff_exists'.mp fun unknown => recoveries ⟨_, member, unknown⟩
    have written := encoded.mem_finish (faithful.recoveries _ member data known)
    rw [ofBytes_padded] at written
    rw [syndrome, Finset.sum_congr rfl (shares _), known]
    refine (congrArg (HAdd.hAdd _) written).trans ?_
    exact sum_lost _ system.lostDistinct system.lostInside
  unfold System.rebuilt
  rw [Finset.sum_congr rfl fun r _ => congrArg _ (syndromes r)]
  exact system.solves valid (fun c' => blockOf _) c

end Solve

/-! ### From the lists of a caller -/

theorem exists_ofFn {α : Type*} {items : List α} {n : Nat} (length : items.length = n) : ∃ f : Fin n → α, ofFn f = items := by
  subst length
  exact ⟨items.get, ofFn_get items⟩

theorem Admissible.exists_system {lost available : List Nat} (admissible : Admissible geometry lost available) :
    ∃ system : System size geometry lost.length,
      ofFn system.lost = lost.insertionSort (· ≤ ·) ∧ ofFn system.rows = chosen lost available := by
  have perm := lost.perm_insertionSort (· ≤ ·)
  obtain ⟨columns, sorted⟩ := exists_ofFn perm.length_eq
  obtain ⟨rows, taken⟩ := exists_ofFn admissible.length_chosen
  refine ⟨⟨columns, rows, ?_, ?_, fun c => ?_, fun r => ?_⟩, sorted, taken⟩
  · exact nodup_ofFn.mp (sorted ▸ perm.nodup_iff.mpr admissible.lostDistinct)
  · exact nodup_ofFn.mp (taken ▸ admissible.nodup_chosen)
  · exact admissible.lostInside _ (perm.mem_iff.mp (sorted ▸ mem_ofFn.mpr ⟨c, rfl⟩))
  · exact admissible.chosen_inside (taken ▸ mem_ofFn.mpr ⟨r, rfl⟩)

theorem Missing.congr {lost lost' rows : List Nat} {calls : List Call} (same : ∀ i, i ∈ lost' ↔ i ∈ lost)
    (missing : Missing geometry lost rows calls) : Missing geometry lost' rows calls :=
  missing.imp_left fun ⟨i, inside, present, unknown⟩ => ⟨i, inside, mt (same i).mp present, unknown⟩

/-- Nothing but a limit stops an encoder of a valid geometry. -/
theorem Encoder.withLimits_error {field : Field size g} {limits : CodecLimits} {blockSize : Nat} {e : Par3Error}
    (accepted : geometry.validate size = .ok blockSize) (failed : Encoder.withLimits field geometry limits = .error e) :
    ∃ reason, e = .codecLimitExceeded reason := by
  unfold Encoder.withLimits at failed
  rw [accepted] at failed
  dsimp only at failed
  split at failed
  · exact ⟨_, (Except.error.inj failed).symm⟩
  · rename_i buffers _
    rcases charge_cases buffers limits "the recovery rows" with charged | ⟨reason, refused⟩
    · grind
    · grind

end Rarpar.Par3

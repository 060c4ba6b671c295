import Rarpar.Par3.CauchyBlocks

namespace Rarpar.Par3
open GfSymbol List

variable {size : FieldSize} {g : Nat} {geometry : Geometry}

/-! ### Building a decoder -/

theorem checkDistinct_ok {check : Nat → Option String} {items : List Nat} {previous : Option Nat}
    (allowed : ∀ index ∈ items, check index = none) (distinct : items.Nodup) (fresh : ∀ index ∈ items, previous ≠ some index) :
    checkDistinct check previous items = .ok () := by
  induction items generalizing previous with
  | nil => rfl
  | cons first rest ih =>
    obtain ⟨unlisted, distinct⟩ := nodup_cons.mp distinct
    rw [checkDistinct, allowed first mem_cons_self]
    rw [if_neg (fresh first mem_cons_self)]
    refine ih (fun index later => allowed index (mem_cons_of_mem _ later)) distinct fun index later same => ?_
    exact unlisted (Option.some.inj same ▸ later)

theorem sortedDistinct_ok (check : Nat → Option String) {indices : List Nat}
    (allowed : ∀ index ∈ indices, check index = none) (distinct : indices.Nodup) :
    sortedDistinct indices check = .ok (indices.insertionSort (· ≤ ·)) := by
  have perm := indices.perm_insertionSort (· ≤ ·)
  unfold sortedDistinct
  dsimp only
  rw [checkDistinct_ok (fun index member => allowed index (perm.mem_iff.mp member)) (perm.nodup_iff.mpr distinct)
    fun _ _ => Option.some_ne_none _ ∘ Eq.symm]

/-- A loss and the recovery blocks at hand that `with_limits` has no quarrel with. -/
structure Admissible (geometry : Geometry) (lost available : List Nat) : Prop where
  lostDistinct : lost.Nodup
  lostInside : ∀ index ∈ lost, index < geometry.inputBlocks
  availableDistinct : available.Nodup
  availableInside : ∀ index ∈ available,
    geometry.firstRecovery ≤ index ∧ index < geometry.firstRecovery + geometry.recoveryBlocks
  enough : lost.length ≤ available.length

/-- The recovery blocks a decoder chooses. -/
def chosen (lost available : List Nat) : List Nat := (available.insertionSort (· ≤ ·)).take lost.length

namespace Admissible
variable {lost available : List Nat} (admissible : Admissible geometry lost available)
include admissible

theorem length_chosen : (chosen lost available).length = lost.length := by
  rw [chosen, length_take, length_insertionSort]
  exact Nat.min_eq_left admissible.enough

theorem nodup_chosen : (chosen lost available).Nodup :=
  ((available.perm_insertionSort (· ≤ ·)).nodup_iff.mpr admissible.availableDistinct).sublist (take_sublist _ _)

theorem chosen_inside {recovery : Nat} (member : recovery ∈ chosen lost available) :
    recovery < geometry.firstRecovery + geometry.recoveryBlocks :=
  (admissible.availableInside _
    ((available.perm_insertionSort (· ≤ ·)).mem_iff.mp (mem_of_mem_take member))).2

end Admissible

namespace Decoder

/-- The calls that supplied input blocks, and those that supplied recovery blocks. -/
def inputsOf (calls : List Call) : List (Nat × List UInt8) :=
  calls.filterMap fun | .input index data => some (index, data) | .recovery _ _ => none

def recoveriesOf (calls : List Call) : List (Nat × List UInt8) :=
  calls.filterMap fun | .recovery index data => some (index, data) | .input _ _ => none

section Calls
variable (calls : List Call) (index : Nat) (data : List UInt8)

theorem inputsOf_input : inputsOf (calls ++ [.input index data]) = inputsOf calls ++ [(index, data)] := by
  rw [inputsOf, filterMap_append]
  rfl

theorem recoveriesOf_input : recoveriesOf (calls ++ [.input index data]) = recoveriesOf calls := by
  rw [recoveriesOf, filterMap_append]
  exact append_nil _

theorem inputsOf_recovery : inputsOf (calls ++ [.recovery index data]) = inputsOf calls := by
  rw [inputsOf, filterMap_append]
  exact append_nil _

theorem recoveriesOf_recovery : recoveriesOf (calls ++ [.recovery index data]) = recoveriesOf calls ++ [(index, data)] := by
  rw [recoveriesOf, filterMap_append]
  rfl

end Calls

/-! ### What a decoder holds -/

variable [primitive : Primitive size.width g]

/-- The part of a syndrome that one input block contributes. -/
def share (geometry : Geometry) (lost : List Nat) (calls : List Call) (recovery i : Nat) : Block size g (geometry.symbols size) :=
  if i ∈ lost then 0 else (coefficient i recovery : Field.Symbol size g) • blockOf (heard geometry (inputsOf calls) i)

theorem share_unheard {lost : List Nat} {calls : List Call} {recovery i : Nat}
    (unknown : heard geometry (inputsOf calls) i = none) : (share geometry lost calls recovery i : Block size g _) = 0 := by
  unfold share
  split
  · rfl
  · rw [unknown]
    exact smul_zero (coefficient i recovery : Field.Symbol size g)

/-- The syndrome of a chosen row once these calls were made. -/
def syndrome (geometry : Geometry) (lost : List Nat) (calls : List Call) (recovery : Nat) : Block size g (geometry.symbols size) :=
  ∑ i ∈ Finset.range geometry.inputBlocks, share geometry lost calls recovery i +
    blockOf (heard geometry (recoveriesOf calls) recovery)

structure Holds (lost rows : List Nat) (calls : List Call) (s : Decoder size g geometry) : Prop where
  sameLost : s.lost = lost
  sameRows : s.rows = rows
  seenInputs : ∀ i < geometry.inputBlocks, s.seenInputs i = (decide (i ∈ lost) || (heard geometry (inputsOf calls) i).isSome)
  seenRows : ∀ k recovery, rows[k]? = some recovery → s.seenRows k = (heard geometry (recoveriesOf calls) recovery).isSome
  syndromes : s.syndromes = rows.map (syndrome geometry lost calls)

/-- Nothing but a limit stops a decoder for an admissible loss. -/
theorem withLimits_admissible (field : Field size g) {lost available : List Nat} {blockSize : Nat} (limits : CodecLimits)
    (accepted : geometry.validate size = .ok blockSize) (admissible : Admissible geometry lost available) :
    (∃ reason, withLimits field geometry lost available limits = .error (.codecLimitExceeded reason)) ∨
    ∃ s, withLimits field geometry lost available limits = .ok s ∧
      s.Holds (lost.insertionSort (· ≤ ·)) (chosen lost available) [] := by
  have lostSorted := sortedDistinct_ok
    (fun index => if index ≥ geometry.inputBlocks then some s!"the set has {geometry.inputBlocks} input blocks" else none)
    (fun index member => if_neg (Nat.not_le.mpr (admissible.lostInside index member))) admissible.lostDistinct
  have availableSorted := sortedDistinct_ok
    (fun index => if index < geometry.firstRecovery ∨ index ≥ geometry.firstRecovery + geometry.recoveryBlocks then
      some s!"the set's recovery blocks are {geometry.firstRecovery}..{geometry.firstRecovery + geometry.recoveryBlocks}"
      else none)
    (fun index member => if_neg (by have := admissible.availableInside index member; omega)) admissible.availableDistinct
  have sorted : (lost.insertionSort (· ≤ ·)).length = lost.length := length_insertionSort _ _
  unfold withLimits
  rw [accepted, lostSorted]
  dsimp only [bind, Except.bind]
  rw [sorted]
  split
  · exact .inl ⟨_, rfl⟩
  rw [availableSorted]
  dsimp only [pure, Except.pure]
  rw [length_insertionSort, if_neg (Nat.not_lt.mpr admissible.enough)]
  split
  · exact .inl ⟨_, rfl⟩
  · rename_i buffers _
    rcases charge_cases buffers limits "the syndromes and the matrix" with charged | ⟨reason, refused⟩
    · rw [charged]
      refine .inr ⟨_, rfl, rfl, rfl, fun i _ => (Bool.or_false _).symm, fun _ _ _ => rfl, ?_⟩
      refine (eq_replicate_iff.mpr ⟨length_map _, fun block member => ?_⟩).symm
      obtain ⟨recovery, _, rfl⟩ := mem_map.mp member
      unfold syndrome
      rw [Finset.sum_eq_zero fun i _ => share_unheard rfl]
      exact add_zero _
    · grind

/-! ### One call -/

section Step
variable {lost rows : List Nat} {calls : List Call} {s : Decoder size g geometry}

/-- Calls that let the decoder hear nothing new. -/
theorem Holds.keep (holds : s.Holds lost rows calls) {call : Call}
    (inputs : ∀ i < geometry.inputBlocks, i ∉ lost →
      heard geometry (inputsOf (calls ++ [call])) i = heard geometry (inputsOf calls) i)
    (recoveries : ∀ r ∈ rows, heard geometry (recoveriesOf (calls ++ [call])) r = heard geometry (recoveriesOf calls) r) :
    s.Holds lost rows (calls ++ [call]) := by
  refine ⟨holds.sameLost, holds.sameRows, fun i inside => ?_, fun k recovery known => ?_, ?_⟩
  · rw [holds.seenInputs i inside]
    by_cases gone : i ∈ lost
    · rw [decide_eq_true gone]
      rfl
    · rw [inputs i inside gone]
  · rw [holds.seenRows k _ known, recoveries _ (mem_of_getElem? known)]
  · rw [holds.syndromes]
    refine map_congr_left fun recovery member => ?_
    unfold syndrome
    rw [recoveries _ member]
    refine congrArg (· + _) (Finset.sum_congr rfl fun i inside => ?_)
    unfold share
    split
    · rfl
    · grind

/-- A recovery block is refused without a trace, or added to its syndrome. -/
theorem Holds.addRecoveryBlock (distinct : rows.Nodup) (holds : s.Holds lost rows calls) (index : Nat) (data : List UInt8) :
    (s.addRecoveryBlock index data).2.Holds lost rows (calls ++ [.recovery index data]) ∧
      (∀ e, (s.addRecoveryBlock index data).1 = .error e → (s.addRecoveryBlock index data).2 = s) := by
  have inputs (i : Nat) : heard geometry (inputsOf (calls ++ [.recovery index data])) i = heard geometry (inputsOf calls) i := by
    rw [inputsOf_recovery]
  have kept (recoveries : ∀ r ∈ rows,
      heard geometry (recoveriesOf calls ++ [(index, data)]) r = heard geometry (recoveriesOf calls) r) :
      s.Holds lost rows (calls ++ [.recovery index data]) := by
    refine holds.keep (fun i _ _ => inputs i) fun r member => ?_
    rw [recoveriesOf_recovery]
    exact recoveries r member
  obtain rfl := holds.sameLost
  obtain rfl := holds.sameRows
  unfold Decoder.addRecoveryBlock
  split
  · rename_i absent
    have absent := idxOf?_eq_none_iff.mp absent
    exact ⟨kept fun r member => heard_other fun same => absent (same ▸ member), fun _ _ => rfl⟩
  rename_i k place
  obtain ⟨within, here, _⟩ := idxOf?_eq_some_iff.mp place
  have position := getElem?_eq_some_iff.mpr ⟨within, here⟩
  split
  · rename_i long
    exact ⟨kept fun r _ => heard_kept fun _ short => absurd long (Nat.not_lt.mpr short), fun _ _ => rfl⟩
  rename_i short
  rw [holds.seenRows k index position]
  split
  · rename_i known
    exact ⟨kept fun r _ => heard_kept fun same _ => same ▸ known, fun _ _ => rfl⟩
  rename_i fresh
  have unknown := Option.not_isSome_iff_eq_none.mp fresh
  have now := heard_first unknown (Nat.le_of_not_lt short)
  -- rows are named once, so the place tells the row
  have only {j recovery : Nat} (known : s.rows[j]? = some recovery) : j = k ↔ recovery = index := by
    obtain ⟨inside, there⟩ := List.getElem?_eq_some_iff.mp known
    rw [← there, ← here]
    exact (distinct.getElem_inj_iff).symm
  refine ⟨⟨rfl, rfl, fun i within => ?_, fun j recovery known => ?_, ?_⟩, nofun⟩
  · rw [inputs, ← holds.seenInputs i within]
  · dsimp only
    rw [recoveriesOf_recovery]
    by_cases same : j = k
    · grind
    · rw [Function.update_of_ne same, heard_other (mt (only known).mpr same), holds.seenRows j _ known]
  · dsimp only
    rw [holds.syndromes]
    refine ext_getElem? fun j => ?_
    rw [getElem?_modify, getElem?_map, getElem?_map]
    cases known : s.rows[j]? with
    | none => rfl
    | some recovery =>
      have shares : ∑ i ∈ Finset.range geometry.inputBlocks, share geometry s.lost (calls ++ [.recovery index data]) recovery i =
          (∑ i ∈ Finset.range geometry.inputBlocks, share _ s.lost calls _ i : Block size g _) :=
        Finset.sum_congr rfl fun i _ => by rw [share, share, inputs]
      dsimp only [Option.map_some, Option.map_eq_map]
      refine congrArg some ?_
      unfold syndrome
      rw [shares, recoveriesOf_recovery]
      by_cases same : j = k
      · rw [if_pos same.symm, (only known).mp same, now, unknown, add_assoc]
        exact congrArg _ (zero_add _)
      · rw [if_neg (Ne.symm same), heard_other (mt (only known).mpr same)]

section
variable (valid : geometry.Valid size) (inside : ∀ r ∈ rows, r < geometry.firstRecovery + geometry.recoveryBlocks)
include valid inside

/-- An input block is refused without a trace, or added to every syndrome. -/
theorem Holds.addInputBlock (holds : s.Holds lost rows calls) (index : Nat) (data : List UInt8) :
    (s.addInputBlock index data).2.Holds lost rows (calls ++ [.input index data]) ∧
      (∀ e, (s.addInputBlock index data).1 = .error e → (s.addInputBlock index data).2 = s) := by
  have recoveries (r : Nat) : heard geometry (recoveriesOf (calls ++ [.input index data])) r =
      heard geometry (recoveriesOf calls) r := by rw [recoveriesOf_input]
  have kept (inputs : ∀ i < geometry.inputBlocks, i ∉ lost →
      heard geometry (inputsOf calls ++ [(index, data)]) i = heard geometry (inputsOf calls) i) :
      s.Holds lost rows (calls ++ [.input index data]) := by
    refine holds.keep (fun i below present => ?_) fun r _ => recoveries r
    rw [inputsOf_input]
    exact inputs i below present
  obtain rfl := holds.sameLost
  obtain rfl := holds.sameRows
  unfold Decoder.addInputBlock
  split
  · rename_i outside
    exact ⟨kept fun i below _ => heard_other (by omega), fun _ _ => rfl⟩
  rename_i below
  split
  · rename_i long
    exact ⟨kept fun i _ _ => heard_kept fun _ short => absurd long (Nat.not_lt.mpr short), fun _ _ => rfl⟩
  rename_i short
  split
  · rename_i gone
    exact ⟨kept fun i _ present => heard_other fun same => present (same ▸ gone), fun _ _ => rfl⟩
  rename_i present
  have seen := holds.seenInputs index (Nat.lt_of_not_le below)
  rw [decide_eq_false present, Bool.false_or] at seen
  rw [seen]
  split
  · rename_i known
    exact ⟨kept fun i _ _ => heard_kept fun same _ => same ▸ known, fun _ _ => rfl⟩
  rename_i fresh
  have unknown := Option.not_isSome_iff_eq_none.mp fresh
  have now := heard_first unknown (Nat.le_of_not_lt short)
  have added := accumulateRows_eq s.field index data (s.rows.zip s.syndromes) fun row member =>
    valid.element_eq s.field (Nat.lt_of_not_le below) (inside row.1 (of_mem_zip member).1)
  rw [added]
  refine ⟨⟨holds.sameLost, holds.sameRows, fun i within => ?_, fun k recovery known => ?_, ?_⟩, nofun⟩
  · dsimp only
    rw [inputsOf_input]
    by_cases same : i = index
    · grind
    · rw [Function.update_of_ne same, heard_other same, holds.seenInputs i within]
  · rw [recoveries, ← holds.seenRows k _ known]
  · dsimp only
    rw [holds.syndromes, ← map_prod_left_eq_zip, map_map]
    refine map_congr_left fun recovery _ => ?_
    unfold syndrome
    have grown := sum_learn (f := (share _ s.lost calls recovery : Nat → Block size g _))
      (h := share _ s.lost (calls ++ [.input index data]) _) (Nat.lt_of_not_le below)
      (share_unheard unknown) fun i other => by
        rw [share, share, inputsOf_input, heard_other other]
    rw [grown, recoveries, share, if_neg present, inputsOf_input, now, add_right_comm]
    rfl

/-- Every call keeps the invariant, and one that fails keeps the decoder. -/
theorem Holds.step (distinct : rows.Nodup) (holds : s.Holds lost rows calls) (call : Call) :
    (s.step call).2.Holds lost rows (calls ++ [call]) ∧ ∀ e, (s.step call).1 = .error e → (s.step call).2 = s := by
  cases call with
  | input index data => exact holds.addInputBlock valid inside index data
  | recovery index data => exact holds.addRecoveryBlock distinct index data

theorem Holds.run
    (distinct : rows.Nodup) (holds : s.Holds lost rows []) (calls : List Call) : (s.run calls).Holds lost rows calls := by
  induction calls using reverseRecOn with
  | nil => exact holds
  | append_singleton calls call ih =>
    rw [Decoder.run, foldl_concat]
    exact (ih.step valid inside distinct call).1

end

end Step

end Decoder
end Rarpar.Par3

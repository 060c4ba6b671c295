import Rarpar.Par3.Cauchy

namespace Rarpar.Par3
open GfSymbol List Nat FieldSize

/-! ### Bytes and symbols -/

namespace Block
variable {size : FieldSize} {g n : Nat}

theorem byteAt_ofBytes (data : List UInt8) {offset : Nat} (inside : offset < n * size.symbolBytes) :
    (ofBytes data : Block size g n).byteAt offset = data[offset]?.getD 0 := by
  have low (k : Nat) : (data[k]?.getD 0).toNat < 256 := (data[k]?.getD 0).toNat_lt
  cases size with
  | gf8 =>
    have here : offset / gf8.symbolBytes < n := by
      show offset / 1 < n
      rw [Nat.div_one]
      exact (mul_one n) ▸ inside
    have zero : offset % gf8.symbolBytes = 0 := mod_one offset
    rw [byteAt, dif_pos here, zero, mul_zero, shiftRight_zero]
    simp only [ofBytes]
    rw [toNat_ofNat (low _), UInt8.ofNat_toNat, show offset / gf8.symbolBytes = offset from Nat.div_one offset]
  | gf16 =>
    change offset < n * 2 at inside
    have here : offset / gf16.symbolBytes < n := by
      show offset / 2 < n
      omega
    rw [byteAt, dif_pos here]
    simp only [ofBytes, show offset / gf16.symbolBytes = offset / 2 from rfl,
      show offset % gf16.symbolBytes = offset % 2 from rfl]
    have first := low (2 * (offset / 2))
    have second := low (2 * (offset / 2) + 1)
    have fits : (data[2 * (offset / 2)]?.getD 0).toNat + 256 * (data[2 * (offset / 2) + 1]?.getD 0).toNat <
        2 ^ gf16.width := by
      show _ < 2 ^ 16
      omega
    rw [toNat_ofNat fits]
    refine UInt8.toNat_inj.mp ?_
    rcases mod_two_eq_zero_or_one offset with even | odd
    · have first' : 2 * (offset / 2) = offset := by omega
      rw [even, mul_zero, shiftRight_zero, UInt8.toNat_ofNat', first']
      have here := low offset
      omega
    · have second' : 2 * (offset / 2) + 1 = offset := by omega
      rw [odd, mul_one, shiftRight_eq_div_pow, UInt8.toNat_ofNat', second']
      have here := low offset
      omega

variable {data : List UInt8}

/-- Writing back a block that was read gives its bytes and the padding. -/
theorem toBytes_ofBytes (short : data.length ≤ n * size.symbolBytes) :
    (ofBytes data : Block size g n).toBytes = data ++ replicate (n * size.symbolBytes - data.length) 0 := by
  refine ext_getElem? fun k => ?_
  by_cases inside : k < n * size.symbolBytes
  · rw [toBytes, getElem?_map, getElem?_range inside, Option.map_some, byteAt_ofBytes data inside]
    grind
  · grind [getElem?_eq_none, length_append, length_replicate, toBytes, length_map, length_range]

theorem getElem?_toBytes (block : Block size g n) {offset : Nat} (inside : offset < n * size.symbolBytes) :
    (block.toBytes[offset]?).getD 0 = block.byteAt offset := by
  rw [toBytes, getElem?_map, getElem?_range inside]
  rfl

/-- Reading a block that was written gives its symbols. -/
theorem ofBytes_toBytes (block : Block size g n) : ofBytes block.toBytes = block := by
  funext i
  have bound := (block i).toNat_lt
  cases size with
  | gf8 =>
    have inside : i.val < n * gf8.symbolBytes := by
      show i.val < n * 1
      omega
    have here : i.val / gf8.symbolBytes = i.val := Nat.div_one _
    have zero : i.val % gf8.symbolBytes = 0 := mod_one _
    simp only [ofBytes]
    have within : i.val / gf8.symbolBytes < n := here.trans_lt i.isLt
    rw [getElem?_toBytes block inside, byteAt, dif_pos within, zero, mul_zero, shiftRight_zero]
    simp only [here]
    rw [UInt8.toNat_ofNat']
    exact (congrArg GfSymbol.ofNat (mod_eq_of_lt bound)).trans (ofNat_toNat (block i))
  | gf16 =>
    change (block i).toNat < 2 ^ 16 at bound
    have byte (b : Nat) (small : b < 2) : (block.toBytes[2 * i.val + b]?).getD 0 =
        .ofNat ((block i).toNat >>> (8 * b)) := by
      have inside : 2 * i.val + b < n * gf16.symbolBytes := by
        show 2 * i.val + b < n * 2
        omega
      have here : (2 * i.val + b) / gf16.symbolBytes = i.val := by
        show (2 * i.val + b) / 2 = i.val
        omega
      have rest : (2 * i.val + b) % gf16.symbolBytes = b := by
        show (2 * i.val + b) % 2 = b
        omega
      have within : (2 * i.val + b) / gf16.symbolBytes < n := here.trans_lt i.isLt
      rw [getElem?_toBytes block inside, byteAt, dif_pos within, rest]
      simp only [here]
    simp only [ofBytes]
    have first := byte 0 (by omega)
    have second := byte 1 (by omega)
    rw [add_zero, mul_zero, shiftRight_zero] at first
    rw [first, second, UInt8.toNat_ofNat', UInt8.toNat_ofNat', mul_one, shiftRight_eq_div_pow]
    refine (congrArg GfSymbol.ofNat ?_).trans (ofNat_toNat (block i))
    omega

/-- Padding makes no difference to the symbols. -/
theorem ofBytes_append_zeros (data : List UInt8) (count : Nat) :
    (ofBytes (data ++ replicate count 0) : Block size g n) = ofBytes data := by
  have same (k : Nat) : (data ++ replicate count 0)[k]?.getD 0 = data[k]?.getD 0 := by
    grind
  funext i
  cases size <;> simp only [ofBytes, same]

end Block

/-- The block of a set that these bytes stand for. -/
def Geometry.padded (geometry : Geometry) (data : List UInt8) : List UInt8 :=
  data ++ List.replicate (geometry.blockSize - data.length) 0

/-! ### Geometries -/

/-- What a valid geometry guarantees. -/
structure Geometry.Valid (size : FieldSize) (geometry : Geometry) : Prop where
  whole : geometry.symbols size * size.symbolBytes = geometry.blockSize
  total : geometry.inputBlocks + geometry.firstRecovery + geometry.recoveryBlocks ≤ size.max + 1

theorem Geometry.valid_of_validate {size : FieldSize} {geometry : Geometry} {blockSize : Nat}
    (accepted : geometry.validate size = .ok blockSize) : geometry.Valid size := by
  unfold validate at accepted
  split at accepted
  · cases accepted
  split at accepted
  · cases accepted
  rename_i whole
  split at accepted
  · cases accepted
  rename_i total known
  split at accepted
  · cases accepted
  rename_i fits
  obtain ⟨sum, first, second⟩ := Option.bind_eq_some_iff.mp known
  unfold checked at first second
  split at first
  · split at second
    · obtain rfl := Option.some.inj first
      obtain rfl := Option.some.inj second
      exact ⟨Nat.div_mul_cancel (Nat.dvd_of_mod_eq_zero (not_not.mp whole)), Nat.le_of_not_lt fits⟩
    · cases second
  · cases first

theorem charge_cases (bytes : Nat) (limits : CodecLimits) (what : String) :
    charge bytes limits what = .ok () ∨ ∃ reason, charge bytes limits what = .error (.codecLimitExceeded reason) := by
  unfold charge
  split
  · exact .inr ⟨_, rfl⟩
  · exact .inl rfl

section Codec
variable {size : FieldSize} {g : Nat} {geometry : Geometry}

theorem ofBytes_padded (geometry : Geometry) (data : List UInt8) {n : Nat} :
    (Block.ofBytes (geometry.padded data) : Block size g n) = Block.ofBytes data :=
  Block.ofBytes_append_zeros data _

theorem toBytes_ofBytes_padded (valid : geometry.Valid size) (short : data.length ≤ geometry.blockSize) :
    (Block.ofBytes data : Block size g (geometry.symbols size)).toBytes = geometry.padded data := by
  rw [Block.toBytes_ofBytes (by rw [valid.whole]; exact short), valid.whole]
  rfl

variable {pairs : List (Nat × List UInt8)} {data : List UInt8}

section Matrix
variable [primitive : Primitive size.width g]

/-- The two coordinates of the Cauchy matrix. -/
def column (input : Nat) : Field.Symbol size g := .ofNat input

def row (recovery : Nat) : Field.Symbol size g := .ofNat (size.max - recovery)

/-- The element of the matrix. -/
def coefficient (input recovery : Nat) : Field.Symbol size g := (column input + row recovery)⁻¹

namespace Geometry.Valid
variable (valid : geometry.Valid size)
include valid

omit primitive in
theorem column_add_row_ne_zero {input recovery : Nat} (inside : input < geometry.inputBlocks)
    (chosen : recovery < geometry.firstRecovery + geometry.recoveryBlocks) :
    (column input + row recovery : Field.Symbol size g) ≠ 0 := by
  have total := valid.total
  have width := size.max_lt
  intro zero
  have same : (column input : Field.Symbol size g) = row recovery := by
    have shifted := congrArg (· + (row recovery : Field.Symbol size g)) zero
    simpa only [add_assoc, add_self, add_zero, zero_add] using shifted
  have := (ofNat_inj (by omega) (by omega)).mp same
  omega

theorem element_eq (field : Field size g) {input recovery : Nat} (inside : input < geometry.inputBlocks)
    (chosen : recovery < geometry.firstRecovery + geometry.recoveryBlocks) :
    element field input recovery = .ok (coefficient input recovery) := by
  have total := valid.total
  unfold element
  rw [if_neg (by omega), Field.symbol_eq (by omega), Field.symbol_eq (sub_le _ _)]
  dsimp only [Option.getD_some]
  have nonzero : (GfSymbol.ofNat input + GfSymbol.ofNat _ : Field.Symbol size g) ≠ 0 :=
    valid.column_add_row_ne_zero inside chosen
  rw [field.inv_eq, if_neg nonzero]
  rfl

end Geometry.Valid

/-- The loop over the rows adds the data to each of them. -/
theorem accumulateRows_eq {n : Nat} (field : Field size g) (index : Nat) (data : List UInt8)
    (rows : List (Nat × Block size g n))
    (known : ∀ row ∈ rows, element field index row.1 = .ok (coefficient index row.1)) :
    accumulateRows field index data rows =
      (.ok (), rows.map fun row => row.2 + (coefficient index row.1 : Field.Symbol size g) • Block.ofBytes data) := by
  induction rows with
  | nil => rfl
  | cons first rest ih =>
    simp_all [accumulateRows, accumulate, field.mulAcc_eq, map_cons]

/-! ### What a codec has heard -/

/-- The first data offered for a block in a length it can have. -/
def heard (geometry : Geometry) (calls : List (Nat × List UInt8)) (index : Nat) : Option (List UInt8) :=
  (calls.find? fun call => call.1 = index ∧ call.2.length ≤ geometry.blockSize).map (·.2)

omit primitive in
theorem heard_append (calls : List (Nat × List UInt8)) (call : Nat × List UInt8) (index : Nat) :
    heard geometry (calls ++ [call]) index = (heard geometry calls index).or
      (if call.1 = index ∧ call.2.length ≤ geometry.blockSize then some call.2 else none) := by
  rw [heard, heard, find?_append, Option.map_or]
  refine congrArg _ ?_
  grind

omit primitive in
/-- Data of no use, or for a block already heard of. -/
theorem heard_kept {index i : Nat} (old : i = index → data.length ≤ geometry.blockSize → (heard geometry pairs i).isSome) :
    heard geometry (pairs ++ [(index, data)]) i = heard geometry pairs i := by
  rw [heard_append]
  split_ifs with fits
  · obtain ⟨before, known⟩ := Option.isSome_iff_exists.mp (old fits.1.symm fits.2)
    rw [known, Option.some_or]
  · exact Option.or_none

omit primitive in
theorem heard_other {index i : Nat} (other : i ≠ index) :
    heard geometry (pairs ++ [(index, data)]) i = heard geometry pairs i := heard_kept fun same => absurd same other

omit primitive in
theorem heard_first {index : Nat}
    (unknown : heard geometry pairs index = none) (short : data.length ≤ geometry.blockSize) :
    heard geometry (pairs ++ [(index, data)]) index = some data := by
  rw [heard_append, unknown, if_pos ⟨rfl, short⟩, Option.none_or]

omit primitive in
theorem heard_length {calls : List (Nat × List UInt8)} {index : Nat}
    (known : heard geometry calls index = some data) : data.length ≤ geometry.blockSize := by
  obtain ⟨call, found, rfl⟩ := Option.map_eq_some_iff.mp known
  have fits := find?_some found
  simp only [decide_eq_true_eq] at fits
  exact fits.2

/-- The block heard of, or nothing. -/
def blockOf {n : Nat} (data : Option (List UInt8)) : Block size g n := data.elim 0 Block.ofBytes

end Matrix

/-- A sum changes by what one index learns. -/
theorem sum_learn {M : Type*} [AddCommMonoid M] {n j : Nat} {f h : Nat → M} (inside : j < n) (zero : f j = 0)
    (others : ∀ i, i ≠ j → h i = f i) : ∑ i ∈ Finset.range n, h i = ∑ i ∈ Finset.range n, f i + h j := by
  have member := Finset.mem_range.mpr inside
  rw [← Finset.add_sum_erase _ h member, ← Finset.add_sum_erase _ f member, zero, zero_add, add_comm]
  exact congrArg (· + h j) (Finset.sum_congr rfl fun i other => others i (Finset.mem_erase.mp other).1)

/-! ### The encoder -/

namespace Encoder
variable [primitive : Primitive size.width g]

/-- The encoder has added what it heard of. -/
structure Holds (calls : List (Nat × List UInt8)) (s : Encoder size g geometry) : Prop where
  seen : ∀ i < geometry.inputBlocks, s.seen i = (heard geometry calls i).isSome
  count : s.seenCount = ∑ i ∈ Finset.range geometry.inputBlocks, if (heard geometry calls i).isSome then 1 else 0
  rows : s.rows = (List.range geometry.recoveryBlocks).map fun k => ∑ i ∈ Finset.range geometry.inputBlocks,
    (coefficient i (geometry.firstRecovery + k) : Field.Symbol size g) • blockOf (heard geometry calls i)

variable {s : Encoder size g geometry}

theorem holds_withLimits {field : Field size g} {limits : CodecLimits}
    (made : withLimits field geometry limits = .ok s) : s.Holds [] := by
  unfold withLimits at made
  split at made
  · cases made
  split at made
  · cases made
  split at made
  · cases made
  obtain rfl := Except.ok.inj made
  refine ⟨fun _ _ => rfl, (Finset.sum_const_zero).symm, ?_⟩
  refine ext_getElem? fun k => ?_
  rw [getElem?_replicate, getElem?_map]
  by_cases inside : k < geometry.recoveryBlocks
  · rw [if_pos inside, getElem?_range inside, Option.map_some]
    refine congrArg some (Eq.symm (Finset.sum_eq_zero fun i _ => ?_))
    exact smul_zero _
  · grind

variable {calls : List (Nat × List UInt8)}

/-- One call adds its block, or changes nothing. -/
theorem Holds.step (valid : geometry.Valid size)
    (holds : s.Holds calls) (call : Nat × List UInt8) : (s.addInputBlock call.1 call.2).2.Holds (calls ++ [call]) := by
  obtain ⟨index, data⟩ := call
  have keep (same : ∀ i < geometry.inputBlocks, heard geometry (calls ++ [(index, data)]) i = heard geometry calls i) :
      s.Holds (calls ++ [(index, data)]) := by
    refine ⟨fun i inside => ?_, ?_, ?_⟩
    · rw [same i inside, holds.seen i inside]
    · rw [holds.count]
      exact Finset.sum_congr rfl fun i inside => by rw [same i (Finset.mem_range.mp inside)]
    · rw [holds.rows]
      refine map_congr_left fun k _ => Finset.sum_congr rfl fun i inside => ?_
      rw [same i (Finset.mem_range.mp inside)]
  unfold addInputBlock checkInput
  by_cases outside : index ≥ geometry.inputBlocks
  · rw [if_pos outside]
    exact keep fun i inside => heard_kept fun same => absurd outside (by omega)
  have inside := Nat.lt_of_not_le outside
  by_cases long : data.length > geometry.blockSize
  · rw [if_neg outside, if_pos long]
    exact keep fun i _ => heard_kept fun _ short => absurd long (Nat.not_lt.mpr short)
  rw [if_neg outside, if_neg long, holds.seen index inside]
  split
  · rename_i failed
    split at failed
    · rename_i known
      exact keep fun i _ => heard_kept fun same _ => same ▸ known
    · cases failed
  · rename_i slot accepted
    split_ifs at accepted with fresh
    obtain rfl := Except.ok.inj accepted
    have unknown := Option.not_isSome_iff_eq_none.mp fresh
    have now := heard_first unknown (Nat.le_of_not_lt long)
    rw [accumulateRows_eq s.field index data _ fun row member => by
      obtain ⟨⟨buffer, k⟩, listed, rfl⟩ := mem_map.mp member
      have bound := (mem_zipIdx' listed).1
      rw [holds.rows, length_map, length_range] at bound
      exact valid.element_eq s.field inside (Nat.add_lt_add_left bound _)]
    refine ⟨fun i below => ?_, ?_, ?_⟩
    · dsimp only
      by_cases same : i = index
      · grind
      · rw [Function.update_of_ne same, heard_other same, holds.seen i below]
    · dsimp only
      have grown := sum_learn (f := fun i => if (heard _ calls i).isSome then 1 else 0)
        (h := fun i => if (heard _ (calls ++ [(index, data)]) i).isSome then 1 else 0) inside
        (by rw [unknown]; rfl) fun i apart => by rw [heard_other apart]
      rw [grown, now, holds.count]
      rfl
    · dsimp only
      rw [map_map, holds.rows]
      refine ext_getElem? fun k => ?_
      rw [getElem?_map, getElem?_zipIdx, getElem?_map, getElem?_map]
      by_cases below : k < geometry.recoveryBlocks
      · rw [getElem?_range below]
        refine congrArg some ?_
        let term (calls : List (Nat × List UInt8)) (i : Nat) : Block size g (geometry.symbols size) :=
          (coefficient i (geometry.firstRecovery + k) : Field.Symbol size g) • blockOf (heard geometry calls i)
        have grown := sum_learn (f := term calls) (h := term (calls ++ [(index, data)])) inside
          (by simp only [term, unknown]; exact smul_zero _) fun i apart => by simp only [term, heard_other apart]
        refine Eq.trans ?_ grown.symm
        simp only [term, now, zero_add]
        rfl
      · grind

theorem Holds.run (valid : geometry.Valid size) (holds : s.Holds [])
    (calls : List (Nat × List UInt8)) : (s.run calls).Holds calls := by
  induction calls using reverseRecOn with
  | nil => exact holds
  | append_singleton calls call ih =>
    rw [Encoder.run, foldl_concat]
    exact ih.step valid call

/-- A complete encoder has heard of every block. -/
theorem Holds.isComplete_iff (holds : s.Holds calls) :
    s.isComplete = true ↔ ∀ i < geometry.inputBlocks, (heard geometry calls i).isSome := by
  rw [isComplete, beq_iff_eq, holds.count, ← Finset.card_filter]
  have all := Finset.card_filter_eq_iff (s := Finset.range geometry.inputBlocks)
    (p := fun i => (heard geometry calls i).isSome = true)
  rw [Finset.card_range] at all
  exact all.trans (by simp only [Finset.mem_range])

/-- The rows that were written for the blocks heard of. -/
theorem Holds.mem_finish (holds : s.Holds calls)
    {recovery : Nat} (listed : ⟨recovery, data⟩ ∈ s.finish) :
    (Block.ofBytes data : Block size g (geometry.symbols size)) = ∑ i ∈ Finset.range geometry.inputBlocks,
      (coefficient i recovery : Field.Symbol size g) • blockOf (heard geometry calls i) := by
  obtain ⟨⟨block, k⟩, member, same⟩ := mem_map.mp listed
  have there := (mem_zipIdx_iff_getElem?).mp member
  rw [holds.rows, getElem?_map] at there
  obtain ⟨k', found, sum⟩ := Option.map_eq_some_iff.mp there
  obtain ⟨_, rfl⟩ := List.getElem?_eq_some_iff.mp found
  rw [getElem_range] at sum
  obtain ⟨rfl, rfl⟩ := IndexedBlock.mk.inj same
  rw [Block.ofBytes_toBytes]
  exact sum.symm

end Encoder
end Codec
end Rarpar.Par3

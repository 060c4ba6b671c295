import Rarpar.Data.CanonicalCode
import Rarpar.Data.CountingSort
import Rarpar.Unrar.Huffman

namespace Rarpar.Unrar.HuffmanTable
open CanonicalCode Function CountingSort

variable {lengths : List Nat} {decodePos : Nat → Nat}

theorem mask_eq {l : Nat} (le : l ≤ 15) : l &&& 0xF = l := by
  have small : l < 2 ^ 4 := by omega
  exact Nat.and_two_pow_sub_one_of_lt_two_pow small

/-- The lengths that count, the keys by which the symbols are sorted. -/
def keys (lengths : List Nat) : List Nat := lengths.filter (· ≠ 0)

theorem count_keys (lengths : List Nat) (l : Nat) : (keys lengths).count l = count lengths l := by
  unfold keys count
  by_cases zero : l = 0
  · rw [if_pos zero, zero]
    exact List.count_eq_zero.mpr (by simp)
  · simp_all

section Counting
variable (bounded : ∀ l ∈ lengths, l ≤ 15)
include bounded

theorem countLengths_fold (state : (Nat → Nat) × Nat) :
    (∀ l, (lengths.foldl countStep state).1 l = state.1 l + (keys lengths).count l) ∧
      ((lengths.foldl countStep state).2 = 0 ↔ state.2 = 0 ∧ keys lengths = []) := by
  induction lengths generalizing state with
  | nil => simp [keys]
  | cons x rest ih =>
    have le := bounded x List.mem_cons_self
    have later := fun state => ih (fun l member => bounded l (List.mem_cons_of_mem x member)) state
    rw [List.foldl_cons]
    by_cases zero : x = 0
    · have step : countStep state x = state := by simp [countStep, zero]
      have same : keys (x :: rest) = keys rest := by simp [keys, zero]
      rw [step, same]
      exact later state
    · have step : countStep state x = (update state.1 x (state.1 x + 1), max state.2 x) := by
        simp [countStep, mask_eq le, zero]
      have head : keys (x :: rest) = x :: keys rest := by simp [keys, zero]
      rw [step, head]
      refine ⟨fun l => ?_, ?_⟩
      · grind
      · grind

theorem lengthCount_eq (l : Nat) : update (countLengths lengths).1 0 0 l = count lengths l := by
  obtain ⟨counted, -⟩ := countLengths_fold bounded (fun _ => 0, 0)
  rw [← count_keys]
  by_cases zero : l = 0
  · subst zero
    simp [count_keys, count]
  · rw [update_of_ne zero]
    exact (counted l).trans (Nat.zero_add _)

theorem maxLength_eq_zero : (countLengths lengths).2 = 0 ↔ keys lengths = [] := by
  obtain ⟨-, longest⟩ := countLengths_fold bounded (fun _ => 0, 0)
  exact longest.trans (by simp)

end Counting

section Limits
variable {lengthCount : Nat → Nat}

/-- After `n` rounds the running limit is the next first code, and the cells up to `n` hold their
threshold and the number of shorter codes. -/
theorem limits_fold (counted : ∀ l, lengthCount l = count lengths l) {n : Nat} (le : n ≤ 15) :
    let state := (List.range' 1 n).foldl (limitStep lengthCount) (0, fun _ => 0, fun _ => 0)
    state.1 = 2 * limit lengths n ∧ (∀ i ≤ n, state.2.1 i = threshold lengths 16 i) ∧
      ∀ i ≤ n, state.2.2 i = starts (keys lengths) 16 i := by
  induction n with
  | zero =>
    refine ⟨by simp [limit, firstCode, count], ?_, ?_⟩
    · rintro i le
      obtain rfl : i = 0 := by omega
      simp [threshold, limit, firstCode, count]
    · rintro i le
      obtain rfl : i = 0 := by omega
      simp [starts_zero]
  | succ n ih =>
    obtain ⟨running, thresholds, positions⟩ := ih (by omega)
    have upper := (limit_succ lengths n).symm
    rw [List.range'_concat, List.foldl_append]
    simp only [Nat.one_mul, List.foldl_cons, List.foldl_nil, limitStep, running, counted, Nat.add_comm 1 n, upper]
    refine ⟨Nat.mul_comm _ _, fun i le => ?_, fun i le => ?_⟩
    · by_cases last : i = n + 1
      · subst last
        rw [update_self, Nat.shiftLeft_eq]
        rfl
      · grind
    · by_cases last : i = n + 1
      · subst last
        rw [update_self, Nat.add_sub_cancel, positions n le_rfl, starts_succ _ (by omega),
          count_keys]
      · grind

end Limits

section Symbols

/-- The symbols with a code, each with its length. -/
def entries (lengths : List Nat) : List (Nat × Nat) := lengths.zipIdx.filter fun entry => entry.1 ≠ 0

theorem entries_keys (lengths : List Nat) : (entries lengths).map Prod.fst = keys lengths := by
  have projected := List.zipIdx_map_fst 0 lengths
  unfold entries keys
  rw [← projected, List.filter_map]
  simp [comp_def]

theorem zipIdx_le (bounded : ∀ l ∈ lengths, l ≤ 15) : ∀ entry ∈ lengths.zipIdx, entry.1 ≤ 15 :=
  fun _ listed => bounded _ (List.fst_mem_of_mem_zipIdx listed)

theorem entries_inside (bounded : ∀ l ∈ lengths, l ≤ 15) : ∀ entry ∈ entries lengths, entry.1 < 16 := by
  intro entry member
  exact Nat.lt_succ_of_le (zipIdx_le bounded entry (List.mem_filter.mp member).1)

theorem keys_length_le (lengths : List Nat) : (keys lengths).length ≤ lengths.length := List.length_filter_le _ _

/-- The bounds check never fails, so the loop is the placement of a counting sort. -/
theorem symbolStep_fold (bounded : ∀ l ∈ lengths, l ≤ 15) {front rest : List (Nat × Nat)}
    (whole : lengths.zipIdx = front ++ rest) :
    front.foldl (symbolStep lengths.length) (starts (keys lengths) 16, fun _ => 0) =
      place (front.filter fun entry => entry.1 ≠ 0) (starts (keys lengths) 16) fun _ => 0 := by
  induction front using List.reverseRecOn generalizing rest with
  | nil => rfl
  | append_singleton front entry ih =>
    rw [List.append_assoc, List.singleton_append] at whole
    have before := ih whole
    have key : entry.1 ≤ 15 := zipIdx_le bounded entry (by simp [whole])
    rw [List.foldl_append, List.filter_append, before]
    by_cases zero : entry.1 = 0
    · simp [symbolStep, zero]
    · have split : entries lengths = (front.filter fun entry => entry.1 ≠ 0) ++ entry ::
          (rest.filter fun entry => entry.1 ≠ 0) := by
        simp [entries, whole, zero]
      have filled := place_front_filled (entries_inside bounded) (fun _ : Nat => 0) split
      rw [entries_keys] at filled
      have room : starts (keys lengths) 16 entry.1 +
          ((front.filter fun entry => entry.1 ≠ 0).map Prod.fst).count entry.1 < lengths.length := by
        have total := starts_succ_le_length (keys lengths) 16 (show entry.1 < 16 by omega)
        have fewer : ((front.filter fun entry => entry.1 ≠ 0).map Prod.fst).count entry.1 <
            (keys lengths).count entry.1 := by
          rw [← entries_keys, split, List.map_append, List.count_append, List.map_cons, List.count_cons_self]
          omega
        have short := keys_length_le lengths
        omega
      have single : ([entry].filter fun entry => entry.1 ≠ 0) = [entry] := by simp [zero]
      have guard_ : (place (front.filter fun entry => entry.1 ≠ 0)
          (starts (keys lengths) 16) fun _ => 0).1 entry.1 < lengths.length := by
        rw [filled.cursor]
        exact room
      rw [single, place_concat, List.foldl_cons, List.foldl_nil]
      simp only [symbolStep, mask_eq key, ne_eq, zero, not_false_eq_true, if_true, put, if_pos guard_]

/-- The loop reads the cursors of the lengths in use only. -/
theorem symbolStep_fold_congr {numSymbols : Nat} {listed : List (Nat × Nat)} (bounded : ∀ entry ∈ listed, entry.1 ≤ 15)
    {left right placed : Nat → Nat} (same : ∀ i ≤ 15, left i = right i) :
    (listed.foldl (symbolStep numSymbols) (left, placed)).2 = (listed.foldl (symbolStep numSymbols) (right, placed)).2 := by
  induction listed generalizing left right placed with
  | nil => rfl
  | cons entry rest ih =>
    have key := bounded entry List.mem_cons_self
    have later := fun other member => bounded other (List.mem_cons_of_mem entry member)
    simp only [List.foldl_cons, symbolStep, mask_eq key]
    by_cases zero : entry.1 = 0
    · simpa [zero] using ih later same
    · simp only [ne_eq, zero, not_false_eq_true, if_true, same entry.1 key]
      refine ih later fun i le => ?_
      by_cases here : i = entry.1
      · rw [here, update_self, update_self]
      · rw [update_of_ne here, update_of_ne here, same i le]

/-- The symbols of one length stand in order from its start on. -/
theorem symbols_cell (bounded : ∀ l ∈ lengths, l ≤ 15)
    (positions : ∀ i ≤ 15, decodePos i = starts (keys lengths) 16 i) {l : Nat} (positive : l ≠ 0)
    (le : l ≤ 15) :
    (List.range' (decodePos l) (count lengths l)).map (symbols lengths decodePos) = ofLength lengths 0 l := by
  have cell := place_cell (entries_inside bounded) (fun _ : Nat => 0) (c := l) (by omega)
  simp only [entries_keys, starts_succ (keys lengths) (show l < 16 by omega), Nat.add_sub_cancel_left,
    count_keys] at cell
  unfold symbols
  rw [symbolStep_fold_congr (zipIdx_le bounded) positions, symbolStep_fold bounded (List.append_nil _).symm,
    positions l le]
  refine cell.trans ?_
  unfold entries ofLength
  rw [List.filter_filter]
  congr 1
  refine List.filter_congr fun entry _ => ?_
  by_cases same : entry.1 = l
  · simp [same, positive]
  · simp [same]

/-- The symbol of a code stands behind the earlier ones of its length. -/
theorem symbols_rank (bounded : ∀ l ∈ lengths, l ≤ 15)
    (positions : ∀ i ≤ 15, decodePos i = starts (keys lengths) 16 i) {sym : Nat}
    (inside : sym < lengths.length) (coded : lengths.getD sym 0 ≠ 0) :
    symbols lengths decodePos (decodePos (lengths.getD sym 0) + rank lengths sym) = sym := by
  have at_ : lengths[sym]? = some (lengths.getD sym 0) := by
    rw [List.getD_eq_getElem _ _ inside, List.getElem?_eq_getElem inside]
  have le : lengths.getD sym 0 ≤ 15 := bounded _ (List.mem_of_getElem? at_)
  have below := rank_lt inside coded
  have listed := ofLength_rank lengths 0 at_
  rw [← symbols_cell bounded positions coded le] at listed
  rw [show (lengths.take sym).count _ = rank lengths sym from rfl] at listed
  rw [List.getElem?_map, List.getElem?_range' below, Option.map_some] at listed
  simpa only [Nat.one_mul, Nat.zero_add, Option.some.injEq] using listed

end Symbols

section Quick
variable {decodeLen decodeNum : Nat → Nat} {quickBits numSymbols : Nat}

/-- Length `l` is the first whose threshold is above the field. -/
structure FirstAbove (decodeLen : Nat → Nat) (bitField l : Nat) : Prop where
  positive : 0 < l
  le : l ≤ 15
  below : ∀ i, 0 < i → i < l → decodeLen i ≤ bitField
  above : bitField < decodeLen l

theorem moveLength_eq {bitField l : Nat} (first : FirstAbove decodeLen bitField l) {fuel cur : Nat} (positive : 0 < cur)
    (before : cur ≤ l) (enough : l < cur + fuel) : moveLength decodeLen bitField fuel cur = l := by
  induction fuel generalizing cur with
  | zero => omega
  | succ fuel ih =>
    unfold moveLength
    have le := first.le
    rcases before.lt_or_eq with less | rfl
    · rw [if_pos ⟨by omega, first.below cur positive less⟩]
      exact ih (by omega) less (by omega)
    · exact if_neg fun more => absurd first.above (Nat.not_lt.mpr more.2)

/-- Wherever it stops, the cursor has only passed thresholds that are not above the field. -/
theorem moveLength_passed (decodeLen : Nat → Nat) (bitField fuel : Nat) {cur : Nat} (positive : 0 < cur)
    (passed : ∀ i, 0 < i → i < cur → decodeLen i ≤ bitField) :
    0 < moveLength decodeLen bitField fuel cur ∧
      ∀ i, 0 < i → i < moveLength decodeLen bitField fuel cur → decodeLen i ≤ bitField := by
  induction fuel generalizing cur with
  | zero => exact ⟨positive, passed⟩
  | succ fuel ih =>
    unfold moveLength
    split
    · grind
    · exact ⟨positive, passed⟩

/-- The position in the symbol list that a field of length `l` points at. -/
def slot (decodeLen decodePos : Nat → Nat) (bitField l : Nat) : Nat :=
  decodePos l + wrappingSub bitField (decodeLen (l - 1)) >>> (16 - l)

/-- The quick entries written so far hold the first length above their field and its symbol. -/
structure QuickFilled (decodeLen decodePos decodeNum : Nat → Nat) (quickBits numSymbols n : Nat)
    (state : Nat × (Nat → Nat) × (Nat → Nat)) : Prop where
  positive : 0 < state.1
  passed : ∀ m, n ≤ m → ∀ i, 0 < i → i < state.1 → decodeLen i ≤ m <<< (16 - quickBits)
  lengths : ∀ code < n, ∀ l, FirstAbove decodeLen (code <<< (16 - quickBits)) l → state.2.1 code = l
  symbols : ∀ code < n, ∀ l, FirstAbove decodeLen (code <<< (16 - quickBits)) l →
    slot decodeLen decodePos (code <<< (16 - quickBits)) l < numSymbols →
    state.2.2 code = decodeNum (slot decodeLen decodePos (code <<< (16 - quickBits)) l)

theorem shiftLeft_mono {a b : Nat} (le : a ≤ b) (shift : Nat) : a <<< shift ≤ b <<< shift := by
  simp only [Nat.shiftLeft_eq]
  exact Nat.mul_le_mul_right _ le

theorem QuickFilled.step {n : Nat} {state : Nat × (Nat → Nat) × (Nat → Nat)}
    (filled : QuickFilled decodeLen decodePos decodeNum quickBits numSymbols n state) :
    QuickFilled decodeLen decodePos decodeNum quickBits numSymbols (n + 1)
      (quickStep decodeLen decodePos decodeNum quickBits numSymbols state n) := by
  obtain ⟨cur, quickLen, quickNum⟩ := state
  obtain ⟨advanced, passed⟩ := moveLength_passed _ _ 16 filled.positive
    (filled.passed n le_rfl)
  have here {l : Nat} (first : FirstAbove decodeLen (n <<< (16 - quickBits)) l) :
      moveLength decodeLen (n <<< (16 - quickBits)) 16 cur = l := by
    have before : cur ≤ l := by
      by_contra later
      exact absurd first.above (Nat.not_lt.mpr (filled.passed n le_rfl l first.positive (Nat.not_le.mp later)))
    have le := first.le
    have start := filled.positive
    exact moveLength_eq first start before (by omega)
  refine ⟨advanced, fun m later i above below => ?_, fun code below l first => ?_, fun code below l first room => ?_⟩
  · exact (passed i above below).trans (shiftLeft_mono (by omega) _)
  · rcases Nat.lt_succ_iff_lt_or_eq.mp below with earlier | rfl
    · exact (update_of_ne earlier.ne _ _).trans (filled.lengths code earlier l first)
    · exact (update_self _ _ _).trans (here first)
  · have le := first.le
    rcases Nat.lt_succ_iff_lt_or_eq.mp below with earlier | rfl
    · have kept := filled.symbols code earlier l first room
      simp only [quickStep]
      split
      · exact (update_of_ne earlier.ne _ _).trans kept
      · exact kept
    · have fits : l < 16 ∧ decodePos l +
          wrappingSub _ _ >>> (16 - l) < numSymbols := ⟨by omega, room⟩
      simp only [quickStep, here first, if_pos fits, update_self]
      rfl

theorem quickTables_filled (decodeLen decodePos decodeNum : Nat → Nat) (quickBits numSymbols : Nat) :
    QuickFilled decodeLen decodePos decodeNum quickBits numSymbols (1 <<< quickBits)
      (quickTables decodeLen decodePos decodeNum quickBits numSymbols) := by
  unfold quickTables
  induction 1 <<< quickBits with
  | zero =>
    refine ⟨Nat.one_pos, fun _ _ i above below => ?_, fun _ below => by omega, fun _ below => by omega⟩
    have none : i < 1 := below
    omega
  | succ n ih =>
    rw [List.range_succ, List.foldl_append]
    exact ih.step

end Quick

/-- What `build` makes of code lengths: the thresholds of the canonical code, the symbols by length
and rank, and a quick entry for every prefix of a short code. -/
structure Canonical (lengths : List Nat) (t : HuffmanTable) : Prop where
  quickBits : 6 ≤ t.quickBits ∧ t.quickBits ≤ 9
  numSymbols : t.numSymbols = lengths.length
  thresholds : ∀ i ≤ 15, t.decodeLen i = threshold lengths 16 i
  listed : ∀ l, 0 < l → l ≤ 15 → ∀ r < count lengths l, t.decodePos l + r < lengths.length
  symbol : ∀ sym < lengths.length, lengths.getD sym 0 ≠ 0 →
    t.decodeNum (t.decodePos (lengths.getD sym 0) + rank lengths sym) = sym
  quickLen : ∀ code < 2 ^ t.quickBits, ∀ l, FirstAbove t.decodeLen (code <<< (16 - t.quickBits)) l →
    t.quickLen code = l
  quickNum : ∀ code < 2 ^ t.quickBits, ∀ l, FirstAbove t.decodeLen (code <<< (16 - t.quickBits)) l →
    slot t.decodeLen t.decodePos (code <<< (16 - t.quickBits)) l < t.numSymbols →
    t.quickNum code = t.decodeNum (slot t.decodeLen t.decodePos (code <<< (16 - t.quickBits)) l)

theorem quickBitsForSize_bounds (n : Nat) : 6 ≤ quickBitsForSize n ∧ quickBitsForSize n ≤ 9 := by
  unfold quickBitsForSize maxQuickBits
  split <;> omega

theorem count_of_keys_nil (none : keys lengths = []) (l : Nat) : count lengths l = 0 := by
  rw [← count_keys, none, List.count_nil]

theorem limit_of_keys_nil (none : keys lengths = []) (l : Nat) : limit lengths l = 0 := by
  induction l with
  | zero => simp [limit, firstCode, count]
  | succ l ih => rw [limit_succ, ih, count_of_keys_nil none]

theorem length_le (bounded : ∀ l ∈ lengths, l ≤ 15) (sym : Nat) : lengths.getD sym 0 ≤ 15 := by
  by_cases inside : sym < lengths.length
  · simp_all
  · grind

/-- A table of no codes: every threshold is zero. -/
theorem canonical_empty (none : keys lengths = []) :
    Canonical lengths ⟨fun _ => 0, fun _ => 0, fun _ => 0, fun _ => 0, fun _ => 0, quickBitsForSize lengths.length, 0,
      lengths.length⟩ where
  quickBits := quickBitsForSize_bounds _
  numSymbols := rfl
  thresholds i _ := by rw [threshold, limit_of_keys_nil none, Nat.zero_mul]
  listed l _ _ r below := by
    rw [count_of_keys_nil none] at below
    omega
  symbol sym inside coded := by
    have below := rank_lt inside coded
    rw [count_of_keys_nil none] at below
    omega
  quickLen _ _ _ first := absurd first.above (Nat.not_lt_zero _)
  quickNum _ _ _ first := absurd first.above (Nat.not_lt_zero _)

theorem build_canonical (small : lengths.length ≤ maxNumSymbols) (bounded : ∀ l ∈ lengths, l ≤ 15) :
    ∃ t, build lengths = .ok t ∧ Canonical lengths t := by
  unfold build
  rw [if_neg (Nat.not_lt.mpr small)]
  by_cases none : (countLengths lengths).2 = 0
  · simp only [if_pos none]
    exact ⟨_, rfl, canonical_empty ((maxLength_eq_zero bounded).mp none)⟩
  simp only [if_neg none]
  obtain ⟨-, thresholds, positions⟩ := limits_fold (lengthCount_eq bounded) (n := 15) le_rfl
  have quick := quickTables_filled (limits (update (countLengths lengths).1 0 0)).2.1
    (limits (update (countLengths lengths).1 0 0)).2.2
    (symbols lengths (limits (update (countLengths lengths).1 0 0)).2.2) (quickBitsForSize lengths.length)
    lengths.length
  rw [Nat.one_shiftLeft] at quick
  refine ⟨_, rfl, quickBitsForSize_bounds _, rfl, thresholds, fun l positive le r below => ?_,
    fun sym inside coded => symbols_rank bounded positions inside coded, quick.lengths, quick.symbols⟩
  have total := starts_succ_le_length (keys lengths) 16 (show l < 16 by omega)
  have short := keys_length_le lengths
  have start := positions l le
  rw [count_keys] at total
  show (limits _).2.2 l + r < lengths.length
  unfold limits
  omega

end Rarpar.Unrar.HuffmanTable

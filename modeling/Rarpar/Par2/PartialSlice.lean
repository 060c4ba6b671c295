import Mathlib.Data.List.Basic
import Rarpar.Par2.Session

namespace Rarpar.Par2.PartialSlice
open Ranges List Nat Runs

section Gaps
variable {runs : Runs UInt8} {cursor start stop : Nat} {gaps : List (Nat × Nat)}

/-- The stretches of an interval that no run covers, in order. -/
structure Gaps (runs : Runs UInt8) (cursor stop : Nat) (gaps : List (Nat × Nat)) : Prop where
  inside : ∀ g ∈ gaps, cursor ≤ g.1 ∧ g.1 < g.2 ∧ g.2 ≤ stop
  ordered : gaps.Pairwise fun g h => g.2 ≤ h.1
  exact_ : ∀ i, cursor ≤ i → i < stop → ((∃ g ∈ gaps, g.1 ≤ i ∧ i < g.2) ↔ ¬ runs.Covers i)

/-- The stretch up to the first run, or nothing if that has begun. -/
theorem Gaps.before (inside : cursor ≤ stop) (free : runs.Free cursor stop) :
    Gaps runs cursor stop (if stop > cursor then [(cursor, stop)] else []) := by
  split
  · refine ⟨fun g member => ?_, pairwise_singleton _ _, fun i least most => ?_⟩
    · grind
    · exact iff_of_true ⟨_, mem_singleton.mpr rfl, least, most⟩ (free i least most)
  · exact ⟨nofun, .nil, fun i least most => absurd most (by omega)⟩

theorem Gaps.append {middle resume : Nat} {more : List (Nat × Nat)} (first : Gaps runs cursor middle gaps)
    (second : Gaps runs resume stop more) (skip : middle ≤ resume) (start_ : cursor ≤ middle) (stop_ : resume ≤ stop)
    (covered : ∀ i, middle ≤ i → i < resume → runs.Covers i) : Gaps runs cursor stop (gaps ++ more) := by
  refine ⟨fun g member => ?_, pairwise_append.mpr ⟨first.ordered, second.ordered, fun g left h right => ?_⟩,
    fun i least most => ?_⟩
  · rcases mem_append.mp member with left | right
    · have := first.inside g left
      omega
    · have := second.inside g right
      omega
  · have := first.inside g left
    have := second.inside h right
    omega
  · simp only [mem_append, or_and_right, exists_or]
    by_cases early : i < middle
    · have none_ : ¬ ∃ g ∈ more, g.1 ≤ i ∧ i < g.2 := by
        rintro ⟨g, member, low, _⟩
        have := second.inside g member
        omega
      rw [or_iff_left none_]
      exact first.exact_ i least early
    have none_ : ¬ ∃ g ∈ gaps, g.1 ≤ i ∧ i < g.2 := by
      rintro ⟨g, member, _, high⟩
      have := first.inside g member
      omega
    rw [or_iff_right none_]
    by_cases late : resume ≤ i
    · exact second.exact_ i late most
    · refine iff_of_false ?_ (not_not.mpr (covered i (by omega) (by omega)))
      rintro ⟨g, member, low, _⟩
      have := second.inside g member
      omega

theorem Gaps.congr {other : Runs UInt8} (found : Gaps runs cursor stop gaps)
    (same : ∀ i, cursor ≤ i → i < stop → (other.Covers i ↔ runs.Covers i)) : Gaps other cursor stop gaps :=
  ⟨found.inside, found.ordered, fun i least most => by rw [same i least most, found.exact_ i least most]⟩

theorem uncoveredLoop_gaps (separated : runs.Separated) (early : ∀ r ∈ runs, r.1 < stop) (inside : cursor ≤ stop) :
    Gaps runs cursor stop (uncoveredLoop stop cursor runs) := by
  induction runs generalizing cursor with
  | nil => exact .before inside fun i _ _ => not_covers_nil
  | cons r rest ih =>
    obtain ⟨head, after, tail⟩ := separated_cons.mp separated
    have begins := early r mem_cons_self
    have late : ∀ s ∈ rest, s.1 < stop := fun s member => early s (mem_cons_of_mem r member)
    have later {i : Nat} (before : i < r.1 + r.2.length) : ¬ Runs.Covers rest i := by
      rintro ⟨s, member, low, _⟩
      have := after s member
      omega
    have behind {i : Nat} (past : r.1 + r.2.length ≤ i) : Runs.Covers (r :: rest) i ↔ Runs.Covers rest i := by
      rw [Runs.covers_cons]
      exact or_iff_right (by omega)
    unfold uncoveredLoop
    dsimp only
    split
    · rename_i passed
      exact (ih tail late inside).congr fun i least _ => behind (by omega)
    have first : Gaps (r :: rest) cursor (max cursor r.1) (if r.1 > cursor then [(cursor, min r.1 stop)] else []) := by
      rw [min_eq_left begins.le]
      have free : Runs.Free (r :: rest) cursor (max cursor r.1) := by
        intro i least most cover
        rcases covers_cons.mp cover with here | there
        · omega
        · exact later (by omega) there
      have gap := Gaps.before (le_max_left cursor r.1) free
      by_cases ahead : r.1 > cursor
      · rwa [if_pos ahead, max_eq_right ahead.le, if_pos ahead] at *
      · rwa [if_neg ahead, max_eq_left (by omega), if_neg (lt_irrefl _)] at *
    have covered (resume : Nat) (upTo : resume ≤ r.1 + r.2.length) :
        ∀ i, max cursor r.1 ≤ i → i < resume → Runs.Covers (r :: rest) i := fun i least most =>
      covers_cons.mpr (Or.inl (by omega))
    have next : max (if r.1 > cursor then min r.1 stop else cursor) (min (r.1 + r.2.length) stop) =
        min (r.1 + r.2.length) stop := by
      split <;> omega
    rw [next]
    split
    · rename_i ends
      have ends := ends ▸ min_le_left _ _
      have done : Gaps (r :: rest) stop stop [] := ⟨nofun, .nil, fun i least most => absurd most (by omega)⟩
      have all := first.append done (Nat.max_le.mpr ⟨inside, begins.le⟩) (Nat.le_max_left _ _) le_rfl (covered stop ends)
      rwa [append_nil] at all
    · rename_i open_
      have early : r.1 + r.2.length ≤ stop := by
        omega
      rw [min_eq_left early]
      have found := (ih tail late early).congr fun i least _ => behind least
      exact first.append found (by omega) (le_max_left _ _) (by omega) (covered _ le_rfl)

/-- Filling its gaps gives every position of a stretch its new value, unless it has one. -/
theorem fillGaps_eq (data : List UInt8) (separated : runs.Separated)
    (inside : ∀ g ∈ gaps, start ≤ g.1 ∧ g.1 < g.2 ∧ g.2 ≤ start + data.length)
    (ordered : gaps.Pairwise fun g h => g.2 ≤ h.1) (free : ∀ g ∈ gaps, runs.Free g.1 g.2) :
    (fillGaps start data gaps runs).Separated ∧
      (∀ i v, (fillGaps start data gaps runs).Holds i v ↔
        runs.Holds i v ∨ ((∃ g ∈ gaps, g.1 ≤ i ∧ i < g.2) ∧ data[i - start]? = some v)) ∧
      (fillGaps start data gaps runs).total = runs.total + (gaps.map fun g => g.2 - g.1).sum := by
  induction gaps generalizing runs with
  | nil => exact ⟨separated, fun i v => by simp [fillGaps], by simp [fillGaps]⟩
  | cons g rest ih =>
    obtain ⟨least, some_, most⟩ := inside g mem_cons_self
    have here := free g mem_cons_self
    obtain ⟨after, ordered⟩ := pairwise_cons.mp ordered
    have size : (slice (g.1 - start) (g.2 - start) data).length = g.2 - g.1 := by
      rw [length_slice (by omega)]
      omega
    have stop : g.1 + (slice (g.1 - start) (g.2 - start) data).length = g.2 := by omega
    have nonempty : slice (g.1 - start) (g.2 - start) data ≠ [] := by
      grind
    rw [← stop] at here
    have separated' := insert_separated separated here nonempty
    obtain ⟨done, values, count⟩ := ih separated' (fun h member => inside h (mem_cons_of_mem g member)) ordered
      (fun h member i low high cover => by
        have apart := after h member
        rcases (covers_insert separated here nonempty).mp cover with old | new
        · exact free h (mem_cons_of_mem g member) i low high old
        · omega)
    refine ⟨done, fun i v => ?_, ?_⟩
    · have value (low : g.1 ≤ i) (high : i < g.2) :
          (slice (g.1 - start) (g.2 - start) data)[i - g.1]? = data[i - start]? := by
        rw [getElem?_slice (by omega), show g.1 - start + (i - g.1) = i - start by omega]
      refine (values i v).trans ?_
      rw [holds_insert separated here nonempty, exists_mem_cons_iff, or_assoc, or_and_right]
      refine or_congr_right (or_congr_left ⟨?_, ?_⟩)
      · grind
      · grind
    · refine count.trans ?_
      rw [total_insert separated here nonempty, size, map_cons, sum_cons, add_assoc]

end Gaps

variable {p p' : PartialSlice} {start : Nat} {data : List UInt8}

/-- The buffered ranges lie apart within the slice, and their bytes are counted. -/
structure Sound (p : PartialSlice) : Prop where
  separated : p.ranges.Separated
  inside : ∀ r ∈ p.ranges, r.1 + r.2.length ≤ p.expectedLen
  buffered : p.bufferedBytes = p.ranges.total

theorem new_sound (expectedLen : Nat) : (PartialSlice.new expectedLen).Sound := ⟨.nil, nofun, rfl⟩

theorem Sound.not_covers_past (sound : p.Sound) {i : Nat} (past : p.expectedLen ≤ i) : ¬ p.ranges.Covers i := by
  rintro ⟨r, member, _, most⟩
  have := sound.inside r member
  omega

/-- The ranges that start at or past `stop` cover nothing before it. -/
theorem covers_rangesBefore {stop i : Nat} (early : i < stop) : (p.rangesBefore stop).Covers i ↔ p.ranges.Covers i := by
  unfold rangesBefore Runs.Covers
  simp only [mem_filter, decide_eq_true_eq]
  grind

theorem Sound.uncovered_gaps (sound : p.Sound) {stop : Nat} (order : start ≤ stop) :
    Gaps p.ranges start stop (p.uncoveredRanges start stop) := by
  have separated : (p.rangesBefore stop).Separated :=
    ⟨sound.separated.ordered.sublist filter_sublist,
      fun r member => sound.separated.nonempty r (mem_of_mem_filter member)⟩
  have early : ∀ r ∈ p.rangesBefore stop, r.1 < stop := fun r member => by
    simpa using (mem_filter.mp member).2
  exact (uncoveredLoop_gaps separated early order).congr fun i _ most => (covers_rangesBefore most).symm

/-- What one insertion does. -/
structure Inserted (p p' : PartialSlice) (start : Nat) (data : List UInt8) : Prop where
  sound : p'.Sound
  expectedLen : p'.expectedLen = p.expectedLen
  holds : ∀ i v, p'.ranges.Holds i v ↔
    p.ranges.Holds i v ∨ (¬ p.ranges.Covers i ∧ start ≤ i ∧ data[i - start]? = some v)

theorem Inserted.covers (inserted : Inserted p p' start data) (i : Nat) :
    p'.ranges.Covers i ↔ p.ranges.Covers i ∨ (start ≤ i ∧ i < start + data.length) := by
  have held : p'.ranges.Covers i ↔ ∃ v, p'.ranges.Holds i v := covers_iff_holds
  simp only [held, inserted.holds, exists_or, ← covers_iff_holds]
  constructor
  · grind
  · rintro (old | ⟨least, most⟩)
    · exact Or.inl old
    · by_cases old : p.ranges.Covers i
      · exact Or.inl old
      · have bound : i - start < data.length := by omega
        exact Or.inr ⟨data[i - start], old, least, getElem?_eq_getElem bound⟩

theorem Sound.insert_eq (sound : p.Sound) {budget budget' : VerificationMemoryBudget} {added : Nat}
    (fits : start + data.length ≤ p.expectedLen) (done : p.insert start data budget = some (added, p', budget')) :
    Inserted p p' start data := by
  have gaps := sound.uncovered_gaps (le_add_right start data.length)
  unfold insert at done
  dsimp only at done
  split at done
  · cases done
  split at done
  · cases done
  cases done
  obtain ⟨separated, holds, total⟩ := fillGaps_eq data sound.separated gaps.inside gaps.ordered
    (fun g member i low high => by
      have bounds := gaps.inside g member
      exact (gaps.exact_ i (by omega) (by omega)).mp ⟨g, member, low, high⟩)
  refine ⟨⟨separated, fun r member => ?_, ?_⟩, rfl, fun i v => ?_⟩
  · -- the last position of a range is held, so it lies in an old range or in the data
    have long := length_pos_of_ne_nil (separated.nonempty r member)
    have last := (holds _ _).mp ⟨r, member, by omega,
      getElem?_eq_getElem (by omega : r.1 + r.2.length - 1 - r.1 < r.2.length)⟩
    dsimp only
    rcases last with old | ⟨⟨g, found, _, most⟩, _⟩
    · by_contra beyond
      exact sound.not_covers_past (by omega) (covers_iff_holds.mpr ⟨_, old⟩)
    · have := gaps.inside g found
      omega
  · dsimp only
    rw [total, sound.buffered]
  · dsimp only
    rw [holds]
    refine or_congr_right ⟨?_, ?_⟩
    · rintro ⟨⟨g, member, low, high⟩, present⟩
      have bounds := gaps.inside g member
      exact ⟨(gaps.exact_ i (by omega) (by omega)).mp ⟨g, member, low, high⟩, by omega, present⟩
    · rintro ⟨free, least, present⟩
      obtain ⟨bound, _⟩ := List.getElem?_eq_some_iff.mp present
      exact ⟨(gaps.exact_ i least (by omega)).mpr free, present⟩

/-- Bytes that agree wherever both are there match. -/
theorem matchesRange_of_agree (agree : ∀ i v w, p.ranges.Holds i v → start ≤ i → data[i - start]? = some w → v = w) :
    p.matchesRange start data = true := by
  unfold matchesRange
  rw [all_eq_true]
  intro r member
  have stored := mem_of_mem_filter member
  simp only [Bool.decide_or, Bool.or_eq_true, decide_eq_true_eq]
  generalize first : max r.1 start = low, last : min (r.1 + r.2.length) (start + data.length) = high
  by_cases apart : low ≥ high
  · exact Or.inl apart
  right
  apply ext_getElem?
  intro k
  have left : (slice (low - r.1) (high - r.1) r.2).length = high - low := by
    rw [length_slice (by omega)]
    omega
  have right_ : (slice (low - start) (high - start) data).length = high - low := by
    rw [length_slice (by omega)]
    omega
  by_cases inside : k < high - low
  · rw [getElem?_slice (by omega), getElem?_slice (by omega)]
    have there : low - r.1 + k < r.2.length := by omega
    have here : low - start + k < data.length := by omega
    rw [getElem?_eq_getElem there, getElem?_eq_getElem here]
    refine congrArg some (agree (low + k) _ _ ⟨r, stored, by omega, ?_⟩ (by omega) ?_)
    · grind
    · grind
  · rw [getElem?_eq_none (by omega), getElem?_eq_none (by omega)]

theorem feedRanges_eq {runs : Runs UInt8} {offset : Nat} (contiguous : runs.Contiguous offset) (state : SliceChecksumState) :
    feedRanges runs offset state = some (offset + runs.total, state.update runs.contents) := by
  induction runs generalizing offset state with
  | nil => simp [feedRanges, total, contents, SliceChecksumState.update]
  | cons r rest ih =>
    obtain ⟨first, tail⟩ := contiguous
    rw [feedRanges, if_neg (not_not.mpr first), ih tail, total_cons, add_assoc]
    simp only [SliceChecksumState.update, contents, flatMap_cons, append_assoc]

/-- A complete slice is hashed as its bytes in order. -/
theorem Sound.fingerprint_eq (sound : p.Sound) (complete : p.isComplete = true) (hashes : Hashes) (sliceSize : Nat) :
    p.ranges.contents.length = p.expectedLen ∧ p.ranges.Contiguous 0 ∧
      p.fingerprint hashes sliceSize = some (.fromData hashes p.ranges.contents sliceSize) := by
  have full : p.ranges.total = p.expectedLen := by
    rw [isComplete, decide_eq_true_eq, sound.buffered] at complete
    exact complete
  have length : p.ranges.contents.length = p.expectedLen := by rw [length_contents, full]
  have contiguous := (sound.separated.total_le (fun _ _ => zero_le _) sound.inside (zero_le _)).2 full
  refine ⟨length, contiguous, ?_⟩
  rw [fingerprint, if_pos complete, feedRanges_eq contiguous, SliceFingerprint.fromData, length]
  dsimp only
  rw [if_neg (by omega)]

theorem Sound.complete_iff (sound : p.Sound) : p.isComplete = true ↔ ∀ i < p.expectedLen, p.ranges.Covers i := by
  rw [isComplete, decide_eq_true_eq, sound.buffered, sound.separated.covers_iff_total sound.inside]

end Rarpar.Par2.PartialSlice

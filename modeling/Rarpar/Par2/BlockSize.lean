import Mathlib.Algebra.BigOperators.Ring.List
import Mathlib.Algebra.Order.BigOperators.Group.List
import Mathlib.Algebra.Order.Floor.Div
import Mathlib.GroupTheory.GroupAction.Ring
import Mathlib.Tactic.Linarith
import Rarpar.Par2.FileSet

namespace Rarpar.Par2
open List

/-! The search for a block size that gives a wanted number of blocks. -/

/-- `checked_add` of 64-bit numbers. -/
def checkedAdd (reason : String) (a b : Nat) : Except Par2Error Nat :=
  if a + b < 2 ^ 64 then .ok (a + b) else .error (.resourceLimitExceeded reason)

def blocksOf (blockSize length : Nat) : Nat := if length = 0 then 0 else (length - 1) / blockSize + 1

def countForBlock (lengths : List Nat) (blockSize : Nat) : Except Par2Error Nat :=
  lengths.foldlM (fun total length => checkedAdd "source slice count overflows" total (blocksOf blockSize length)) 0

def roundMaximum (maximum length : Nat) : Except Par2Error Nat := do
  let sum ← checkedAdd "source length rounding overflows" length 3
  return max maximum (sum / 4 * 4)

/-- The largest length, rounded up to a block size. -/
def maximumBlock (lengths : List Nat) : Except Par2Error Nat := lengths.foldlM roundMaximum 4

def blockSearch (lengths : List Nat) (target low high : Nat) : Except Par2Error Nat :=
  if low < high then
    let mid := (low / 4 + (high / 4 - low / 4) / 2) * 4
    match countForBlock lengths mid with
    | .error e => .error e
    | .ok count => if count ≤ target then blockSearch lengths target low mid else blockSearch lengths target (mid + 4) high
  else .ok low
termination_by high - low

def smallestBlockForCount (lengths : List Nat) (target : Nat) : Except Par2Error Nat := do
  let maximum ← maximumBlock lengths
  blockSearch lengths target 4 maximum

/-- How many blocks of a size the files take. -/
def totalBlocks (lengths : List Nat) (size : Nat) : Nat := (lengths.map (· ⌈/⌉ size)).sum

variable {lengths : List Nat} {target size other : Nat}

theorem blocksOf_eq (positive : 0 < size) (length : Nat) : blocksOf size length = length ⌈/⌉ size := by
  rw [blocksOf, Nat.ceilDiv_eq_add_pred_div]
  split_ifs with empty
  · rw [empty, Nat.zero_add, Nat.div_eq_of_lt (by omega)]
  · rw [← Nat.add_div_right _ positive]
    congr 1
    omega

/-- A size that is smaller by a factor takes at most that many times the blocks. -/
theorem totalBlocks_le_mul {k : Nat} (positive : 0 < size) (large : 0 < other) (scale : other ≤ k * size) :
    totalBlocks lengths size ≤ k * totalBlocks lengths other := by
  rw [totalBlocks, totalBlocks, ← sum_map_mul_left]
  refine sum_le_sum fun length _ => ?_
  rw [← blocksOf_eq positive, ← blocksOf_eq large, blocksOf, blocksOf]
  split
  · exact Nat.zero_le _
  · have reach := Nat.lt_mul_div_succ (length - 1) large
    rw [Nat.succ_le_iff, Nat.div_lt_iff_lt_mul positive]
    nlinarith

/-- The sum of the blocks, unless it overflows. -/
theorem countForBlock_eq (positive : 0 < size) : countForBlock lengths size =
    if totalBlocks lengths size < 2 ^ 64 then .ok (totalBlocks lengths size)
    else .error (.resourceLimitExceeded "source slice count overflows") := by
  have run (total : Nat) (fits : total < 2 ^ 64) : lengths.foldlM (fun total length =>
      checkedAdd "source slice count overflows" total (blocksOf size length)) total =
      if total + totalBlocks lengths size < 2 ^ 64 then .ok (total + totalBlocks lengths size)
      else .error (.resourceLimitExceeded "source slice count overflows") := by
    induction lengths generalizing total with
    | nil => exact (if_pos fits).symm
    | cons length rest ih =>
      rw [foldlM_cons, checkedAdd, totalBlocks, map_cons, sum_cons, blocksOf_eq positive, ← Nat.add_assoc]
      split
      · rename_i below
        exact ih _ below
      · rename_i past
        exact (if_neg fun below => past (Nat.lt_of_le_of_lt (Nat.le_add_right _ _) below)).symm
  have counted := run 0 (by norm_num)
  rwa [Nat.zero_add] at counted

/-- The block sizes that keep to the wanted number. -/
def Fitting (lengths : List Nat) (target : Nat) : Set Nat := {size | 0 < size ∧ 4 ∣ size ∧ totalBlocks lengths size ≤ target}

/-- The least size lies between the two ends of the search. -/
structure Bracket (lengths : List Nat) (target low high : Nat) : Prop where
  least : low ∈ lowerBounds (Fitting lengths target)
  start : 0 < low ∧ 4 ∣ low
  stop : high ∈ Fitting lengths target

theorem blockSearch_spec {low high : Nat} (bracket : Bracket lengths target low high) :
    (∀ b, blockSearch lengths target low high = .ok b → IsLeast (Fitting lengths target) b) ∧
      (target < 2 ^ 63 → ∃ b, blockSearch lengths target low high = .ok b) := by
  have order := bracket.least bracket.stop
  obtain ⟨positive, even⟩ := bracket.start
  obtain ⟨_, even', fits⟩ := bracket.stop
  fun_induction blockSearch lengths target low high with
  | case1 low high less mid e failed =>
    refine ⟨nofun, fun small => ?_⟩
    have doubled := @totalBlocks_le_mul lengths mid high 2 (by omega) (by omega) (by omega)
    rw [countForBlock_eq (by omega), if_pos (by omega)] at failed
    cases failed
  | case2 low high less mid count counted few ih =>
    rw [countForBlock_eq (by omega)] at counted
    split at counted
    · cases counted
      exact ih ⟨bracket.least, bracket.start, by omega, by omega, few⟩ (by omega) positive even (by omega) (by omega) few
    · cases counted
  | case3 low high less mid count counted many ih =>
    rw [countForBlock_eq (by omega)] at counted
    split at counted
    · cases counted
      refine ih ⟨fun size fitting => ?_, ⟨by omega, by omega⟩, bracket.stop⟩ (by omega) (by omega) (by omega) ‹_› even' fits
      obtain ⟨some, four, fits⟩ := fitting
      by_contra below
      have fewer := @totalBlocks_le_mul lengths mid size 1 (by omega) some (by omega)
      omega
    · cases counted
  | case4 low high equal =>
    obtain rfl : low = high := by omega
    refine ⟨?_, fun _ => ⟨low, rfl⟩⟩
    rintro b ⟨⟩
    exact ⟨bracket.stop, bracket.least⟩

/-- Every length fits into a block of the maximal size. -/
theorem foldlM_roundMaximum (start : Nat) :
    (∀ maximum, lengths.foldlM roundMaximum start = .ok maximum →
      start ≤ maximum ∧ (4 ∣ start → 4 ∣ maximum) ∧ ∀ length ∈ lengths, length ≤ maximum) ∧
    ((∀ length ∈ lengths, length + 3 < 2 ^ 64) → ∃ maximum, lengths.foldlM roundMaximum start = .ok maximum) := by
  induction lengths generalizing start with
  | nil =>
    refine ⟨?_, fun _ => ⟨start, rfl⟩⟩
    rintro maximum ⟨⟩
    exact ⟨le_rfl, id, nofun⟩
  | cons length rest ih =>
    obtain ⟨sound, runs⟩ := ih _
    rw [foldlM_cons, roundMaximum, checkedAdd, forall_mem_cons]
    split_ifs with past
    · refine ⟨fun maximum done => ?_, fun accepted => runs accepted.2⟩
      obtain ⟨above, even, others⟩ := sound maximum done
      exact ⟨by omega, fun four => even (by omega), forall_mem_cons.mpr ⟨by omega, others⟩⟩
    · exact ⟨nofun, fun accepted => absurd accepted.1 past⟩

/-- In the largest size every file with bytes takes one block. -/
theorem totalBlocks_maximum (positive : 0 < size) (longest : ∀ length ∈ lengths, length ≤ size) :
    totalBlocks lengths size = lengths.countP (· ≠ 0) := by
  induction lengths with
  | nil => rfl
  | cons length rest ih =>
    obtain ⟨bound, others⟩ := forall_mem_cons.mp longest
    rw [totalBlocks, map_cons, sum_cons, ← blocksOf_eq positive, blocksOf, Nat.div_eq_of_lt (by omega),
      countP_cons, ← ih others, Nat.add_comm]
    by_cases empty : length = 0
    · simp [empty, totalBlocks]
    · simp [empty, totalBlocks]

/-- The search returns the least block size that keeps to the wanted number, and its sums cannot
overflow below `2 ^ 63` wanted blocks. -/
theorem smallestBlockForCount_least (lengths : List Nat) {target : Nat} (enough : lengths.countP (· ≠ 0) ≤ target) :
    (∀ b, smallestBlockForCount lengths target = .ok b →
      IsLeast (Fitting lengths target) b) ∧
    ((∀ length ∈ lengths, length + 3 < 2 ^ 64) → target < 2 ^ 63 → ∃ b, smallestBlockForCount lengths target = .ok b) := by
  obtain ⟨sound, runs⟩ := @foldlM_roundMaximum lengths 4
  have search (maximum : Nat) (rounded : maximumBlock lengths = .ok maximum) :
      smallestBlockForCount lengths target = blockSearch lengths target 4 maximum ∧
        Bracket lengths target 4 maximum := by
    obtain ⟨above, even, longest⟩ := sound maximum rounded
    refine ⟨?_, fun size fitting => ?_, by omega, by omega, even dvd_rfl, ?_⟩
    · rw [smallestBlockForCount, rounded]
      rfl
    · exact Nat.le_of_dvd fitting.1 fitting.2.1
    · rwa [totalBlocks_maximum (by omega) longest]
  constructor
  · intro b found
    cases rounded : maximumBlock lengths with
    | error e =>
      rw [smallestBlockForCount, rounded] at found
      cases found
    | ok maximum =>
      obtain ⟨unfolded, bracket⟩ := search maximum rounded
      exact (blockSearch_spec bracket).1 b (unfolded ▸ found)
  · intro accepted small
    obtain ⟨maximum, rounded⟩ := runs accepted
    obtain ⟨unfolded, bracket⟩ := search maximum rounded
    rw [unfolded]
    exact (blockSearch_spec bracket).2 small

theorem smallestBlockForCount_three_files : ∃ b, smallestBlockForCount [100, 0, 7] 5 = .ok b ∧
    IsLeast (Fitting [100, 0, 7] 5) b := by
  obtain ⟨sound, runs⟩ := @smallestBlockForCount_least [100, 0, 7] 5 (by decide)
  obtain ⟨b, found⟩ := runs (by decide) (by decide)
  exact ⟨b, found, sound b found⟩

/-- Five files of the largest length with room for every count: blocks of eight bytes fit, but the
sum for blocks of four bytes overflows. -/
theorem smallestBlockForCount_overflows :
    let lengths := replicate 5 (2 ^ 64 - 4)
    (∀ length ∈ lengths, length + 3 < 2 ^ 64) ∧ lengths.countP (· ≠ 0) ≤ 2 ^ 64 - 1 ∧
      totalBlocks lengths 8 ≤ 2 ^ 64 - 1 ∧ smallestBlockForCount lengths (2 ^ 64 - 1) =
        .error (.resourceLimitExceeded "source slice count overflows") := by
  decide +kernel

end Rarpar.Par2

import Rarpar.Data.OrderedMap
import Mathlib.Algebra.BigOperators.Group.List.Basic

namespace Rarpar
open List

/-- Stretches of values, each with the position it starts at, by increasing position. -/
abbrev Runs (V : Type*) := OrderedMap (List V)

namespace Runs
open OrderedMap (insert)
variable {V : Type*} {runs : Runs V} {start lo n i : Nat} {values : List V}

/-- No run is empty and each ends before the next starts. -/
structure Separated (runs : Runs V) : Prop where
  ordered : runs.Pairwise fun r s => r.1 + r.2.length ≤ s.1
  nonempty : ∀ r ∈ runs, r.2 ≠ []

def Covers (runs : Runs V) (i : Nat) : Prop := ∃ r ∈ runs, r.1 ≤ i ∧ i < r.1 + r.2.length

def Holds (runs : Runs V) (i : Nat) (v : V) : Prop := ∃ r ∈ runs, r.1 ≤ i ∧ r.2[i - r.1]? = some v

def total (runs : Runs V) : Nat := (runs.map fun r => r.2.length).sum

theorem Separated.nil : Separated ([] : Runs V) := ⟨.nil, nofun⟩

variable {r : Nat × List V}

theorem separated_cons :
    Separated (r :: runs) ↔ r.2 ≠ [] ∧ (∀ s ∈ runs, r.1 + r.2.length ≤ s.1) ∧ Separated runs := by
  constructor
  · rintro ⟨ordered, nonempty⟩
    obtain ⟨before, ordered⟩ := pairwise_cons.mp ordered
    obtain ⟨head, nonempty⟩ := forall_mem_cons.mp nonempty
    exact ⟨head, before, ordered, nonempty⟩
  · rintro ⟨head, before, ordered, nonempty⟩
    exact ⟨pairwise_cons.mpr ⟨before, ordered⟩, forall_mem_cons.mpr ⟨head, nonempty⟩⟩

theorem covers_cons : Covers (r :: runs) i ↔ (r.1 ≤ i ∧ i < r.1 + r.2.length) ∨ Covers runs i := by
  simp only [Covers, exists_mem_cons_iff]

theorem holds_cons {v : V} : Holds (r :: runs) i v ↔ (r.1 ≤ i ∧ r.2[i - r.1]? = some v) ∨ Holds runs i v := by
  simp only [Holds, exists_mem_cons_iff]

theorem not_covers_nil : ¬ Covers ([] : Runs V) i := nofun

theorem covers_iff_holds : Covers runs i ↔ ∃ v, Holds runs i v := by
  constructor
  · rintro ⟨r, member, least, most⟩
    have bound : i - r.1 < r.2.length := by omega
    exact ⟨r.2[i - r.1], r, member, least, getElem?_eq_getElem bound⟩
  · rintro ⟨v, r, member, least, present⟩
    obtain ⟨bound, _⟩ := List.getElem?_eq_some_iff.mp present
    exact ⟨r, member, least, by omega⟩

/-- A run covers at least its own start. -/
theorem Separated.covers_start (separated : Separated runs) (member : r ∈ runs) : Covers runs r.1 := by
  have := length_pos_of_ne_nil (separated.nonempty r member)
  exact ⟨r, member, le_rfl, by omega⟩

/-- Nothing in the stretch is covered yet. -/
def Free (runs : Runs V) (a b : Nat) : Prop := ∀ i, a ≤ i → i < b → ¬ Covers runs i

/-- A run lies on one side of a free stretch. -/
theorem Separated.apart (separated : Separated runs) {a b : Nat} (free : Free runs a b) (stretch : a < b)
    (member : r ∈ runs) : r.1 + r.2.length ≤ a ∨ b ≤ r.1 := by
  by_contra both
  by_cases least : r.1 ≤ a
  · exact free a le_rfl stretch ⟨r, member, least, by omega⟩
  · exact free r.1 (by omega) (by omega) (separated.covers_start member)

section
variable (separated : Separated runs) (free : Free runs start (start + values.length)) (some_ : values ≠ [])
include separated free some_

/-- A run put into a free stretch lies between those before it and those after it. -/
theorem Separated.exists_split :
    ∃ front back, runs = front ++ back ∧ insert start values runs = front ++ (start, values) :: back ∧
      (∀ r ∈ front, r.1 + r.2.length ≤ start) ∧ ∀ r ∈ back, start + values.length ≤ r.1 := by
  have long := length_pos_of_ne_nil some_
  have fresh : OrderedMap.Fresh start runs := by
    rintro r member rfl
    exact free r.1 le_rfl (by omega) (separated.covers_start member)
  obtain ⟨front, back, whole, inserted, smaller, larger⟩ :=
    OrderedMap.exists_split (separated.ordered.imp fun before => by omega) fresh values
  refine ⟨front, back, whole, inserted, fun r member => ?_, fun r member => ?_⟩
  · have below := smaller r member
    have := separated.apart free (by omega) (whole ▸ mem_append_left back member)
    omega
  · have above := larger r member
    have := separated.apart free (by omega) (whole ▸ mem_append_right front member)
    omega

theorem mem_insert_of_free : r ∈ insert start values runs ↔ r = (start, values) ∨ r ∈ runs := by
  obtain ⟨front, back, rfl, inserted, _, _⟩ := separated.exists_split free some_
  rw [inserted]
  simp only [mem_append, mem_cons]
  exact or_left_comm

theorem insert_separated : Separated (insert start values runs) := by
  refine ⟨?_, fun r member => ?_⟩
  · obtain ⟨front, back, rfl, inserted, before, after⟩ := separated.exists_split free some_
    obtain ⟨left, right, between⟩ := pairwise_append.mp separated.ordered
    rw [inserted]
    refine pairwise_append.mpr ⟨left, pairwise_cons.mpr ⟨after, right⟩, fun r first => ?_⟩
    exact forall_mem_cons.mpr ⟨before r first, between r first⟩
  · rcases (mem_insert_of_free separated free some_).mp member with rfl | old
    · exact some_
    · exact separated.nonempty r old

theorem holds_insert
    {v : V} : Holds (insert start values runs) i v ↔ Holds runs i v ∨ (start ≤ i ∧ values[i - start]? = some v) := by
  simp only [Holds, mem_insert_of_free separated free some_, or_and_right, exists_or, exists_eq_left]
  exact or_comm

theorem covers_insert :
    Covers (insert start values runs) i ↔ Covers runs i ∨ (start ≤ i ∧ i < start + values.length) := by
  simp only [Covers, mem_insert_of_free separated free some_, or_and_right, exists_or, exists_eq_left]
  exact or_comm

end

theorem total_cons (r : Nat × List V) (runs : Runs V) : total (r :: runs) = r.2.length + total runs := by
  simp only [total, map_cons, sum_cons]

theorem total_insert (separated : Separated runs) (free : Free runs start (start + values.length)) (some_ : values ≠ []) :
    total (insert start values runs) = total runs + values.length := by
  obtain ⟨front, back, rfl, inserted, _, _⟩ := separated.exists_split free some_
  rw [inserted]
  simp only [total, map_append, map_cons, sum_append, sum_cons]
  omega

/-- The runs follow one another without a gap, from `lo` on. -/
def Contiguous : Nat → Runs V → Prop
  | _, [] => True
  | lo, r :: rest => r.1 = lo ∧ Contiguous (lo + r.2.length) rest

/-- All the values, in order. -/
def contents (runs : Runs V) : List V := runs.flatMap fun r => r.2

theorem length_contents (runs : Runs V) : (contents runs).length = total runs := by
  simp only [contents, total, length_flatMap]

theorem Contiguous.getElem?_contents (contiguous : Contiguous lo runs) {k : Nat} {v : V}
    (present : (contents runs)[k]? = some v) : Holds runs (lo + k) v := by
  induction runs generalizing lo k with
  | nil => cases present
  | cons r rest ih =>
    obtain ⟨first, tail⟩ := contiguous
    have split_ : contents (r :: rest) = r.2 ++ contents rest := rfl
    rw [split_, getElem?_append] at present
    rw [holds_cons]
    split at present
    · left
      rw [first, Nat.add_sub_cancel_left]
      exact ⟨by omega, present⟩
    · right
      have := ih tail present
      rwa [show lo + r.2.length + (k - r.2.length) = lo + k by omega] at this

section
variable (separated : Separated runs) (least : ∀ r ∈ runs, lo ≤ r.1) (most : ∀ r ∈ runs, r.1 + r.2.length ≤ n) (room : lo ≤ n)
include separated least most room

/-- Runs between `lo` and `n` hold no more than that many values, and all of them only without a gap. -/
theorem Separated.total_le : total runs ≤ n - lo ∧ (total runs = n - lo → Contiguous lo runs) := by
  induction runs generalizing lo with
  | nil => exact ⟨Nat.zero_le _, fun _ => trivial⟩
  | cons r rest ih =>
    obtain ⟨head, before, tail⟩ := separated_cons.mp separated
    have start := least r mem_cons_self
    have stop := most r mem_cons_self
    obtain ⟨bound, full⟩ := ih tail before (fun s member => most s (mem_cons_of_mem r member)) stop
    rw [total_cons]
    refine ⟨by omega, fun all => ?_⟩
    have first : r.1 = lo := by omega
    refine ⟨first, ?_⟩
    rw [← first]
    exact full (by omega)

theorem Separated.total_of_covers
     (all : ∀ i, lo ≤ i → i < n → Covers runs i) :
    total runs = n - lo := by
  induction runs generalizing lo with
  | nil =>
    by_contra short
    have positive : lo < n := by
      simp only [total, map_nil, sum_nil] at short
      omega
    exact not_covers_nil (all lo le_rfl positive)
  | cons r rest ih =>
    obtain ⟨head, before, tail⟩ := separated_cons.mp separated
    have long := length_pos_of_ne_nil head
    have start := least r mem_cons_self
    have stop := most r mem_cons_self
    -- The first position is covered by the first run, since the others start after it.
    have first : r.1 = lo := by
      rcases covers_cons.mp (all lo le_rfl (by omega)) with ⟨at_, _⟩ | ⟨s, member, at_, _⟩
      · omega
      · have := before s member
        omega
    have rest_ := ih tail before (fun s member => most s (mem_cons_of_mem r member)) stop (fun i low high => by
      rcases covers_cons.mp (all i (by omega) high) with ⟨_, inside⟩ | later
      · omega
      · exact later)
    rw [total_cons, rest_]
    omega

end

theorem Separated.covers_iff_total (separated : Separated runs) (most : ∀ r ∈ runs, r.1 + r.2.length ≤ n) :
    (∀ i < n, Covers runs i) ↔ total runs = n := by
  have least : ∀ r ∈ runs, 0 ≤ r.1 := fun _ _ => Nat.zero_le _
  constructor
  · intro all
    exact separated.total_of_covers least most (Nat.zero_le n) (fun i _ high => all i high)
  · intro full i high
    have contiguous := (separated.total_le least most (Nat.zero_le n)).2 full
    have bound : i < (contents runs).length := by rw [length_contents, full]; exact high
    have present := contiguous.getElem?_contents (getElem?_eq_getElem bound)
    rw [Nat.zero_add] at present
    exact covers_iff_holds.mpr ⟨_, present⟩

end Runs
end Rarpar

import Mathlib.Algebra.GroupWithZero.Nat
import Mathlib.Order.Interval.Finset.Nat

namespace Rarpar.Ranges
open List
variable {V : Type*}

/-- The entries of a list from index `a` up to `b`. -/
def slice (a b : Nat) (list : List V) : List V := (list.drop a).take (b - a)

variable {list : List V} {a b : Nat}

theorem mem_slice {x : V} : x ∈ slice a b list ↔ ∃ i, a ≤ i ∧ i < b ∧ list[i]? = some x := by
  unfold slice
  rw [mem_iff_getElem?]
  constructor
  · rintro ⟨k, present⟩
    rw [getElem?_take] at present
    split at present
    · rw [getElem?_drop] at present
      exact ⟨a + k, by omega, by omega, present⟩
    · cases present
  · rintro ⟨i, least, most, present⟩
    refine ⟨i - a, ?_⟩
    rw [getElem?_take, if_pos (by omega), getElem?_drop, Nat.add_sub_cancel' least, present]

theorem length_slice (inside : b ≤ list.length) : (slice a b list).length = b - a := by
  unfold slice
  rw [length_take, length_drop]
  omega

theorem getElem?_slice {k : Nat} (inside : a + k < b) : (slice a b list)[k]? = list[a + k]? := by
  unfold slice
  rw [getElem?_take, if_pos (by omega), getElem?_drop]

theorem slice_append {c : Nat} (first : a ≤ b) (second : b ≤ c) (list : List V) :
    slice a c list = slice a b list ++ slice b c list := by
  unfold slice
  have whole : c - a = (b - a) + (c - b) := by omega
  rw [whole, take_add, drop_drop, Nat.add_sub_cancel' first]

theorem slice_slice {c d : Nat} (inside : a + d ≤ b) (list : List V) : slice c d (slice a b list) = slice (a + c) (a + d) list := by
  unfold slice
  rw [drop_take, drop_drop, take_take]
  congr 1
  omega

theorem slice_map {W : Type*} (f : V → W) (a b : Nat) (list : List V) :
    slice a b (list.map f) = (slice a b list).map f := by
  unfold slice
  rw [← map_drop, ← map_take]

theorem slice_append_left (inside : b ≤ list.length) (more : List V) :
    slice a b (list ++ more) = slice a b list := by
  unfold slice
  by_cases least : a ≤ list.length
  · rw [drop_append_of_le_length least, take_append_of_le_length (by rw [length_drop]; omega)]
  · rw [show b - a = 0 by omega, take_zero, take_zero]

theorem slice_succ (least : a ≤ b) (inside : b < list.length) :
    slice a (b + 1) list = slice a b list ++ [list.get ⟨b, inside⟩] := by
  rw [slice_append least (Nat.le_succ b)]
  unfold slice
  rw [Nat.succ_sub (Nat.le_refl b), Nat.sub_self, drop_eq_getElem_cons inside]
  rfl

/-- A slice by its indices. -/
theorem filterMap_range' (list : List V) (a count : Nat) : (range' a count).filterMap (list[·]?) = (list.drop a).take count := by
  induction count generalizing a with
  | zero => rfl
  | succ count ih =>
    rw [range'_succ]
    by_cases inside : a < list.length
    · rw [filterMap_cons_some (getElem?_eq_getElem inside), ih, drop_eq_getElem_cons inside, take_succ_cons]
    · have beyond := Nat.not_lt.mp inside
      rw [filterMap_cons_none (getElem?_eq_none beyond), ih, drop_of_length_le beyond,
        drop_of_length_le (beyond.trans (Nat.le_succ a)), take_nil, take_nil]

/-- Entries of a slice that satisfy `p`, counted by their indices. -/
theorem length_filter_slice (p : V → Bool) (least : a ≤ b) (inside : b ≤ list.length) :
    ((slice a b list).filter p).length = ((Finset.Ico a b).filter fun i => list[i]?.any p = true).card := by
  induction b, least using Nat.le_induction with
  | base => simp [slice]
  | succ b least ih =>
    have bound : b < list.length := by omega
    rw [slice_succ least bound, filter_append, length_append, ih (by omega),
      Nat.Ico_succ_right_eq_insert_Ico least, Finset.filter_insert, getElem?_eq_getElem bound,
      Option.any_some, get_eq_getElem, filter_singleton]
    split_ifs with counted
    · rw [Finset.card_insert_of_notMem (by simp), counted]
      rfl
    · rw [Bool.not_eq_true] at counted
      rw [counted]
      rfl

/-- Some range holds the index. -/
def Covers (ranges : List (Nat × Nat)) (i : Nat) : Prop := ∃ r ∈ ranges, r.1 ≤ i ∧ i < r.1 + r.2

instance (ranges : List (Nat × Nat)) (i : Nat) : Decidable (Covers ranges i) :=
  inferInstanceAs (Decidable (∃ r ∈ ranges, r.1 ≤ i ∧ i < r.1 + r.2))

/-- Each range ends before the later ones start. -/
def Ordered (ranges : List (Nat × Nat)) : Prop := ranges.Pairwise fun r s => r.1 + r.2 ≤ s.1

variable {ranges : List (Nat × Nat)}

theorem covers_cons {r : Nat × Nat} {i : Nat} :
    Covers (r :: ranges) i ↔ (r.1 ≤ i ∧ i < r.1 + r.2) ∨ Covers ranges i := by
  unfold Covers
  rw [exists_mem_cons_iff]

theorem covers_append {more : List (Nat × Nat)} {i : Nat} :
    Covers (ranges ++ more) i ↔ Covers ranges i ∨ Covers more i := by
  unfold Covers
  simp only [mem_append, or_and_right, exists_or]

/-- Behind the first range of an ordered list only the later ones count. -/
theorem Ordered.not_covers_before {r : Nat × Nat} (ordered : Ordered (r :: ranges)) {i : Nat}
    (before : i < r.1 + r.2) : ¬ Covers ranges i := by
  rintro ⟨s, member, least, _⟩
  have := (pairwise_cons.mp ordered).1 s member
  omega

/-- The overlaps with an interval add up to the indices covered in it. -/
theorem card_covered (ordered : Ordered ranges) (a b : Nat) :
    ((Finset.Ico a b).filter (Covers ranges)).card = (ranges.map fun r => min (r.1 + r.2) b - max r.1 a).sum := by
  induction ranges with
  | nil =>
    rw [Finset.filter_false_of_mem (fun i _ => by rintro ⟨r, member, _⟩; cases member)]
    rfl
  | cons r ranges ih =>
    have split : (Finset.Ico a b).filter (Covers (r :: ranges)) =
        Finset.Ico (max r.1 a) (min (r.1 + r.2) b) ∪ (Finset.Ico a b).filter (Covers ranges) := by
      ext i
      simp only [Finset.mem_filter, Finset.mem_union, Finset.mem_Ico, covers_cons]
      grind
    have apart : Disjoint (Finset.Ico (max r.1 a) (min (r.1 + r.2) b)) ((Finset.Ico a b).filter (Covers ranges)) := by
      rw [Finset.disjoint_left]
      intro i here later
      rw [Finset.mem_Ico] at here
      exact ordered.not_covers_before (by omega) (Finset.mem_filter.mp later).2
    rw [split, Finset.card_union_of_disjoint apart, Nat.card_Ico, ih (pairwise_cons.mp ordered).2, map_cons,
      sum_cons]

end Rarpar.Ranges

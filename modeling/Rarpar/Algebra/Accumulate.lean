import Mathlib.Algebra.BigOperators.Ring.Finset
import Mathlib.Algebra.BigOperators.Group.Finset.Sigma
import Mathlib.Data.List.GetD

namespace Rarpar.Accumulate
open List
variable {M : Type*} [AddCommMonoid M] (term : Nat → M)

theorem foldl_add {α : Type*} (term : α → M) (entries : List α) (start : M) :
    entries.foldl (fun sum a => sum + term a) start = start + (entries.map term).sum := by
  induction entries generalizing start with
  | nil => simp
  | cons a rest ih => rw [foldl_cons, ih, map_cons, sum_cons, add_assoc]

theorem sum_map_range (n : Nat) : ((range n).map term).sum = ∑ i ∈ Finset.range n, term i := rfl

theorem sum_map_filter_range (keep : Nat → Prop) [DecidablePred keep] (n : Nat) :
    (((range n).filter (fun i => keep i)).map term).sum =
      ∑ i ∈ Finset.range n, if keep i then term i else 0 := by
  rw [← Finset.sum_filter]
  rfl

/-- A sum over three indices that number the terms. -/
theorem sum_reindex {a b c n : Nat} (index : Nat → Nat → Nat → Nat) (first second third : Nat → Nat)
    (into : ∀ i j k, i < a → j < b → k < c →
      index i j k < n ∧ first (index i j k) = i ∧ second (index i j k) = j ∧ third (index i j k) = k)
    (back : ∀ t < n, first t < a ∧ second t < b ∧ third t < c ∧ index (first t) (second t) (third t) = t) :
    ∑ i ∈ Finset.range a, ∑ j ∈ Finset.range b, ∑ k ∈ Finset.range c, term (index i j k) =
      ∑ t ∈ Finset.range n, term t := by
  rw [← Finset.sum_product', ← Finset.sum_product']
  refine Finset.sum_nbij' (fun entry => index entry.1.1 entry.1.2 entry.2)
    (fun t => ((first t, second t), third t)) ?_ ?_ ?_ ?_ fun _ _ => rfl <;>
    simp only [Finset.mem_product, Finset.mem_range]
  · exact fun entry member => (into _ _ _ member.1.1 member.1.2 member.2).1
  · grind
  · grind
  · exact fun t member => (back t member).2.2.2

/-- The terms gathered by two classes. -/
theorem sum_classes (term : Nat → Nat → Nat → M) (n : Nat) {a b : Nat} {first second : Nat → Nat}
    (ha : ∀ t, first t < a) (hb : ∀ t, second t < b) :
    ∑ i ∈ Finset.range a, ∑ j ∈ Finset.range b, ∑ t ∈ Finset.range n,
        (if first t = i ∧ second t = j then term i j t else 0) =
      ∑ t ∈ Finset.range n, term (first t) (second t) t := by
  simp only [ite_and]
  rw [Finset.sum_congr rfl fun i _ => Finset.sum_comm, Finset.sum_comm]
  refine Finset.sum_congr rfl fun t _ => ?_
  rw [Finset.sum_eq_single_of_mem _ (Finset.mem_range.mpr (ha t)),
    Finset.sum_eq_single_of_mem _ (Finset.mem_range.mpr (hb t))]
  · simp
  · intro j _ other
    rw [if_neg (c := second t = j) other.symm, ite_self]
  · intro i _ other
    exact Finset.sum_eq_zero fun j _ => if_neg other.symm

/-- The first `n` terms block by block; the last block may be short. -/
theorem sum_blocks (n size count : Nat) :
    ∑ block ∈ Finset.range count, ∑ i ∈ Finset.range (min size (n - block * size)), term (block * size + i) =
      ∑ i ∈ Finset.range (min (count * size) n), term i := by
  induction count with
  | zero => simp
  | succ count ih =>
    have split : min ((count + 1) * size) n = min (count * size) n + min size (n - count * size) := by
      rw [Nat.succ_mul]
      omega
    rw [Finset.sum_range_succ, ih, split, Finset.sum_range_add]
    congr 1
    rcases Nat.le_total _ n with inside | outside
    · rw [Nat.min_eq_left inside]
    · rw [Nat.sub_eq_zero_of_le outside, Nat.min_zero]
      simp

/-- The first `n` terms residue by residue. -/
theorem sum_strided (n : Nat) {stride : Nat} (positive : 0 < stride) :
    ∑ j ∈ Finset.range stride, ∑ i ∈ Finset.range ((n - j + (stride - 1)) / stride), term (j + stride * i) =
      ∑ t ∈ Finset.range n, term t := by
  have inside (j i : Nat) : i < (n - j + (stride - 1)) / stride ↔ j + stride * i < n := by
    rw [Nat.lt_div_iff_mul_lt positive, Nat.mul_comm i]
    omega
  rw [Finset.sum_sigma']
  refine Finset.sum_nbij' (fun entry => entry.1 + stride * entry.2) (fun t => ⟨t % stride, t / stride⟩) ?_ ?_ ?_ ?_ ?_
  · rintro ⟨j, i⟩ member
    simp only [Finset.mem_sigma, Finset.mem_range, inside] at member ⊢
    exact member.2
  · intro t member
    simp only [Finset.mem_sigma, Finset.mem_range, inside, Nat.mod_add_div] at member ⊢
    exact ⟨Nat.mod_lt t positive, member⟩
  · rintro ⟨j, i⟩ member
    simp only [Finset.mem_sigma, Finset.mem_range] at member
    simp only [Nat.add_mul_mod_self_left, Nat.mod_eq_of_lt member.1, Nat.add_mul_div_left _ _ positive,
      Nat.div_eq_of_lt member.1, Nat.zero_add]
  · intro t _
    exact Nat.mod_add_div t stride
  · intro _ _
    rfl

/-- A loop that adds a term to each entry from `i` on. -/
theorem foldl_update_add (i n : Nat) (result : Nat → M) (k : Nat) :
    (range n).foldl (fun result j => Function.update result (i + j) (result (i + j) + term j)) result k =
      result k + if i ≤ k ∧ k < i + n then term (k - i) else 0 := by
  induction n with
  | zero =>
    rw [if_neg (by omega), add_zero]
    rfl
  | succ n ih =>
    rw [range_succ, foldl_append, foldl_cons, foldl_nil]
    by_cases last : k = i + n
    · subst last
      rw [Function.update_self, ih, if_neg (by omega), if_pos (by omega), add_zero, Nat.add_sub_cancel_left]
    · have same : (i ≤ k ∧ k < i + n) ↔ (i ≤ k ∧ k < i + (n + 1)) := by omega
      rw [Function.update_of_ne last, ih]
      simp only [same]

/-- A loop that adds a term to each entry of a list that it visits, once. -/
theorem foldl_modify_add {visited : List Nat} (nodup : visited.Nodup) (data : List M) (p : Nat) :
    (visited.foldl (fun data q => data.modify q (· + term q)) data)[p]? =
      if p ∈ visited then data[p]?.map (· + term p) else data[p]? := by
  induction visited generalizing data with
  | nil => simp
  | cons q rest ih =>
    obtain ⟨fresh, nodup⟩ := nodup_cons.mp nodup
    rw [foldl_cons, ih nodup, getElem?_modify]
    by_cases here : p = q
    · subst here
      simp [fresh]
    · have other : q ≠ p := Ne.symm here
      simp [here, other]

/-- Horner's rule from the first entry down to the constant term. -/
theorem foldl_horner {K : Type*} [CommSemiring K] (x : K) (data : List K) :
    data.foldl (fun sum b => b + x * sum) 0 =
      ∑ p ∈ Finset.range data.length, data.getD p 0 * x ^ (data.length - 1 - p) := by
  induction data using reverseRecOn with
  | nil => simp
  | append_singleton front b ih =>
    rw [foldl_append, foldl_cons, foldl_nil, ih, length_append, length_singleton,
      Finset.sum_range_succ, Nat.add_sub_cancel, Nat.sub_self, pow_zero, mul_one, Finset.mul_sum, add_comm]
    congr 1
    · refine Finset.sum_congr rfl fun p member => ?_
      have inside := Finset.mem_range.mp member
      have exponent : front.length - p = front.length - 1 - p + 1 := by omega
      rw [getD_append _ _ _ _ inside, exponent, pow_succ', mul_left_comm]
    · simp

section Consecutive
variable {n : Nat}

/-- A list of indices that are consecutive from `a` on. -/
def Consecutive (a : Nat) (group : List (Fin n)) : Prop := group.map Fin.val = List.range' a group.length

variable {group : List (Fin n)} {a : Nat} {front rest : List (Fin n)}

theorem Consecutive.cons {s : Fin n} (run : Consecutive a (s :: group)) :
    (s : Nat) = a ∧ Consecutive (a + 1) group := by
  rw [Consecutive, map_cons, length_cons, range'_succ] at run
  obtain ⟨head, rest⟩ := cons.inj run
  exact ⟨head, rest⟩

theorem Consecutive.left (run : Consecutive a (front ++ rest)) : Consecutive a front := by
  rw [Consecutive, map_append, length_append, ← range'_append_1] at run
  exact (append_inj run (by simp)).1

theorem Consecutive.right (run : Consecutive a (front ++ rest)) : Consecutive (a + front.length) rest := by
  rw [Consecutive, map_append, length_append, ← range'_append_1] at run
  exact (append_inj run (by simp)).2

theorem Consecutive.mem_iff (run : Consecutive a group) (r : Fin n) :
    r ∈ group ↔ a ≤ r ∧ (r : Nat) < a + group.length := by
  rw [← mem_range'_1, ← run]
  constructor
  · exact mem_map_of_mem
  · intro member
    obtain ⟨t, listed, same⟩ := mem_map.mp member
    rwa [← Fin.ext same]

theorem Consecutive.nodup (run : Consecutive a group) : group.Nodup := by
  apply List.Nodup.of_map Fin.val
  rw [run]
  exact nodup_range'

theorem consecutive_finRange (n : Nat) : Consecutive 0 (finRange n) := by
  rw [Consecutive, length_finRange, map_coe_finRange_eq_range, range_eq_range']

end Consecutive

end Rarpar.Accumulate

import Mathlib.Algebra.Order.Ring.Nat
import Mathlib.Data.List.Pairwise
import Mathlib.Data.List.Sort

namespace Rarpar
open List

/-- Of elements that are pairwise not both of a kind, one at most is of that kind. -/
theorem unique_of_pairwise {α : Type*} {kind : α → Prop} {xs : List α} {x y : α}
    (apart : xs.Pairwise fun x y => kind x → ¬kind y) (first : x ∈ xs) (second : y ∈ xs) (ofX : kind x) (ofY : kind y) :
    x = y := by
  have symm : Std.Symm fun x y : α => kind x → ¬kind y := ⟨fun _ _ never ofY ofX => never ofX ofY⟩
  by_contra other
  exact apart.forall first second other ofX ofY

/-- A map from numbers, as the list of its entries by increasing key. -/
abbrev OrderedMap (V : Type*) := List (Nat × V)

namespace OrderedMap
variable {V W : Type*} {m m' : OrderedMap V} {k : Nat} {v : V} (f : V → Option W)

/-- An entry with the same key is replaced. -/
def insert (k : Nat) (v : V) : OrderedMap V → OrderedMap V
  | [] => [(k, v)]
  | r :: rest =>
    if k < r.1 then (k, v) :: r :: rest
    else if k = r.1 then (k, v) :: rest
    else r :: insert k v rest

def get (k : Nat) (m : OrderedMap V) : Option V := (m.find? fun r => r.1 = k).map (·.2)

def Sorted (m : OrderedMap V) : Prop := m.Pairwise fun r s => r.1 < s.1

/-- The key is not in the map. -/
def Fresh (k : Nat) (m : OrderedMap V) : Prop := ∀ r ∈ m, r.1 ≠ k

/-- A fresh key goes between the smaller and the larger ones. -/
theorem exists_split (sorted : m.Pairwise fun r s => r.1 ≤ s.1) (fresh : Fresh k m) (v : V) :
    ∃ front back, m = front ++ back ∧ insert k v m = front ++ (k, v) :: back ∧ (∀ r ∈ front, r.1 < k) ∧
      ∀ r ∈ back, k < r.1 := by
  induction m with
  | nil => exact ⟨[], [], rfl, rfl, nofun, nofun⟩
  | cons r rest ih =>
    obtain ⟨first, sorted⟩ := pairwise_cons.mp sorted
    have other := fresh r mem_cons_self
    by_cases below : k < r.1
    · refine ⟨[], r :: rest, rfl, by rw [insert, if_pos below]; rfl, nofun, forall_mem_cons.mpr ⟨below, ?_⟩⟩
      exact fun s later => below.trans_le (first s later)
    · obtain ⟨front, back, whole, inserted, smaller, larger⟩ := ih sorted fun s member =>
        fresh s (mem_cons_of_mem r member)
      refine ⟨r :: front, back, by rw [whole]; rfl, ?_, forall_mem_cons.mpr ⟨by omega, smaller⟩, larger⟩
      rw [insert, if_neg below, if_neg (Ne.symm other), inserted]
      rfl

section
variable (sorted : Sorted m)
include sorted

theorem Sorted.le : m.Pairwise fun r s => r.1 ≤ s.1 := sorted.imp fun less => less.le

theorem mem_insert (fresh : Fresh k m) {r : Nat × V} : r ∈ insert k v m ↔ r = (k, v) ∨ r ∈ m := by
  obtain ⟨front, back, rfl, inserted, _, _⟩ := exists_split sorted.le fresh v
  rw [inserted]
  simp only [mem_append, mem_cons]
  exact or_left_comm

theorem insert_sorted (fresh : Fresh k m) : Sorted (insert k v m) := by
  obtain ⟨front, back, rfl, inserted, smaller, larger⟩ := exists_split sorted.le fresh v
  obtain ⟨left, right, between⟩ := pairwise_append.mp sorted
  rw [inserted]
  refine pairwise_append.mpr ⟨left, pairwise_cons.mpr ⟨larger, right⟩, fun r first => ?_⟩
  exact forall_mem_cons.mpr ⟨smaller r first, between r first⟩

/-- Two maps with the same entries are one. -/
theorem Sorted.ext (sorted' : Sorted m') (same : ∀ r, r ∈ m ↔ r ∈ m') : m = m' := by
  have : Std.Irrefl fun r s : Nat × V => r.1 < s.1 := ⟨fun _ => lt_irrefl _⟩
  have : Std.Antisymm fun r s : Nat × V => r.1 < s.1 := ⟨fun _ _ less more => absurd (less.trans more) (lt_irrefl _)⟩
  exact List.Pairwise.eq_of_mem_iff sorted sorted' same

/-- The entry of a key is the only one. -/
theorem Sorted.unique {w : V} (first : (k, v) ∈ m) (second : (k, w) ∈ m) : v = w := by
  have apart : m.Pairwise fun r s => r.1 = k → ¬s.1 = k := sorted.imp fun less => by omega
  exact congrArg Prod.snd (unique_of_pairwise apart first second rfl rfl)

theorem Sorted.get_eq_some : get k m = some v ↔ (k, v) ∈ m := by
  rw [get, Option.map_eq_some_iff]
  constructor
  · rintro ⟨⟨key, w⟩, found, rfl⟩
    have same : key = k := by simpa only [decide_eq_true_eq] using find?_some found
    exact same ▸ mem_of_find?_eq_some found
  · intro member
    cases found : m.find? fun r => r.1 = k with
    | none => exact absurd (decide_eq_true rfl) (find?_eq_none.mp found _ member)
    | some r =>
      obtain ⟨key, w⟩ := r
      obtain rfl : key = k := by simpa only [decide_eq_true_eq] using find?_some found
      exact ⟨_, rfl, sorted.unique (mem_of_find?_eq_some found) member⟩

end

theorem get_eq_none : get k m = none ↔ Fresh k m := by
  simp only [get, Option.map_eq_none_iff, find?_eq_none, decide_eq_true_eq, Fresh, ne_eq]

theorem insert_append {front back : OrderedMap V} (smaller : ∀ r ∈ front, r.1 < k) (larger : ∀ r ∈ back, k < r.1) :
    insert k v (front ++ back) = front ++ (k, v) :: back := by
  induction front with
  | nil =>
    cases back with
    | nil => rfl
    | cons r rest => rw [nil_append, insert, if_pos (larger r mem_cons_self), nil_append]
  | cons r rest ih =>
    have below := smaller r mem_cons_self
    rw [cons_append, insert, if_neg (by omega), if_neg (by omega),
      ih fun s member => smaller s (mem_cons_of_mem r member), cons_append]

/-- The values that `f` keeps, under their keys. -/
def pick (f : V → Option W) (m : OrderedMap V) : OrderedMap W := m.filterMap fun r => (f r.2).map fun w => (r.1, w)

theorem mem_pick {f : V → Option W} {w : W} : (k, w) ∈ pick f m ↔ ∃ v, (k, v) ∈ m ∧ f v = some w := by
  simp [pick]

theorem pick_fresh (fresh : Fresh k m) : Fresh k (pick f m) := by
  rintro ⟨key, w⟩ member rfl
  obtain ⟨v, there, _⟩ := mem_pick.mp member
  exact fresh _ there rfl

theorem pick_sorted (sorted : Sorted m) : Sorted (pick f m) := by
  refine List.Pairwise.filterMap _ (fun r s less r' kept s' kept' => ?_) sorted
  obtain ⟨_, _, rfl⟩ := Option.map_eq_some_iff.mp kept
  obtain ⟨_, _, rfl⟩ := Option.map_eq_some_iff.mp kept'
  exact less

theorem pick_insert (sorted : Sorted m) (fresh : Fresh k m) :
    pick f (insert k v m) = match f v with
      | none => pick f m
      | some w => insert k w (pick f m) := by
  obtain ⟨front, back, rfl, inserted, smaller, larger⟩ := exists_split sorted.le fresh v
  have keys {part : OrderedMap V} (bound : Nat → Prop) (all : ∀ r ∈ part, bound r.1) : ∀ r ∈ pick f part, bound r.1 := by
    rintro ⟨key, w⟩ member
    obtain ⟨v, there, _⟩ := mem_pick.mp member
    exact all _ there
  have apart (left right : OrderedMap V) : pick f _ = pick f left ++ pick f right := filterMap_append
  rw [inserted, apart, apart]
  cases kept : f v with
  | none =>
    rw [pick, pick, filterMap_cons_none (by rw [kept]; rfl)]
    rfl
  | some w =>
    dsimp only
    rw [insert_append (keys (· < k) smaller) (keys (k < ·) larger), pick, pick,
      filterMap_cons_some (by rw [kept]; rfl)]
    rfl

end OrderedMap
end Rarpar

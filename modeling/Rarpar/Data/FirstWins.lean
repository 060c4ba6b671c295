import Mathlib.Data.Finset.Card
import Rarpar.Data.Table

namespace Rarpar.Table
open List Option
variable {κ ν : Type*} [DecidableEq κ] {t : Table κ ν} (entries : List (κ × ν)) (limit : Option Nat)

/-! Maps that keep the first value offered under each key, perhaps up to a number of keys. -/

omit [DecidableEq κ] in
@[ext]
theorem ext {a b : Table κ ν} (lookups : ∀ k, a.lookup k = b.lookup k) : a = b := by
  obtain ⟨lookup, keys, mem⟩ := a
  obtain ⟨lookup', keys', mem'⟩ := b
  obtain rfl : lookup = lookup' := funext lookups
  have same : keys = keys' := by
    ext k
    rw [mem, mem']
  subst same
  rfl

def empty : Table κ ν := ⟨fun _ => none, ∅, fun _ => by simp⟩

def insert (t : Table κ ν) (key : κ) (value : ν) : Table κ ν where
  lookup := Function.update t.lookup key (some value)
  keys := Insert.insert key t.keys
  mem_keys k := by
    by_cases same : k = key
    · simp [same]
    · simp [same, t.mem_keys]

/-- The entries under keys of `bound` that a function gives. -/
def within (bound : Finset κ) (lookup : κ → Option ν) : Table κ ν where
  lookup k := if k ∈ bound then lookup k else none
  keys := bound.filter fun k => (lookup k).isSome
  mem_keys k := by
    by_cases inside : k ∈ bound <;> simp [inside]

/-- The entries that satisfy a test. -/
def retain (t : Table κ ν) (keep : κ → ν → Bool) : Table κ ν := within t.keys fun k => (t.lookup k).filter (keep k)

/-- Insert under a new key, while fewer keys than the limit are held. -/
def offer (limit : Option Nat) (t : Table κ ν) (entry : κ × ν) : Table κ ν :=
  if entry.1 ∈ t.keys then t
  else if limit.any (· ≤ t.keys.card) then t
  else t.insert entry.1 entry.2

/-- The first value offered under a key. -/
def firstOf (entries : List (κ × ν)) (key : κ) : Option ν := (entries.find? fun entry => entry.1 = key).map (·.2)

omit [DecidableEq κ] in
theorem notMem_keys {t : Table κ ν} {key : κ} : key ∉ t.keys ↔ t.lookup key = none := by
  rw [t.mem_keys, not_isSome_iff_eq_none]

theorem lookup_within (bound : Finset κ) (lookup : κ → Option ν) (outside : ∀ k, k ∉ bound → lookup k = none) (k : κ) :
    (within bound lookup).lookup k = lookup k := by
  show (if k ∈ bound then lookup k else none) = lookup k
  split_ifs with absent
  · rfl
  · exact (outside k absent).symm

theorem lookup_retain (t : Table κ ν) (keep : κ → ν → Bool) (k : κ) :
    (t.retain keep).lookup k = (t.lookup k).filter (keep k) :=
  lookup_within _ _ (fun k absent => by rw [notMem_keys.mp absent]; rfl) k

theorem firstOf_cons (entry : κ × ν) (entries : List (κ × ν)) (key : κ) :
    firstOf (entry :: entries) key = if entry.1 = key then some entry.2 else firstOf entries key := by
  unfold firstOf
  by_cases same : entry.1 = key
  · rw [find?_cons_of_pos (by simpa using same), if_pos same]
    rfl
  · rw [find?_cons_of_neg (by simpa using same), if_neg same]

theorem firstOf_append (first second : List (κ × ν)) (key : κ) :
    firstOf (first ++ second) key = (firstOf first key).or (firstOf second key) := by
  rw [firstOf, find?_append, map_or]
  rfl

theorem firstOf_eq_none_iff {entries : List (κ × ν)} {key : κ} : firstOf entries key = none ↔ ∀ entry ∈ entries, entry.1 ≠ key := by
  rw [firstOf, map_eq_none_iff, find?_eq_none]
  simp only [decide_eq_true_eq, ne_eq]

/-- A test of the keys lets all the values under a key pass, or none. -/
theorem firstOf_filter (test : κ → Bool) (key : κ) :
    firstOf (entries.filter fun entry => test entry.1) key = if test key then firstOf entries key else none := by
  have same : (fun entry : κ × ν => decide (test entry.1 = true ∧ decide (entry.1 = key) = true)) =
      fun entry => test key && decide (entry.1 = key) := by
    funext entry
    by_cases here : entry.1 = key <;> simp [here]
  rw [firstOf, find?_filter, same]
  cases test key <;> simp [firstOf]

/-- Without a limit, what was held stays and the first offer is taken. -/
theorem lookup_foldl_offer_none (t : Table κ ν) (key : κ) :
    (entries.foldl (offer none) t).lookup key = (t.lookup key).or (firstOf entries key) := by
  induction entries generalizing t with
  | nil => exact (or_none).symm
  | cons entry rest ih =>
    rw [foldl_cons, ih, firstOf_cons]
    unfold offer
    by_cases held : entry.1 ∈ t.keys
    · rw [if_pos held]
      by_cases same : entry.1 = key
      · rw [if_pos same]
        obtain ⟨value, known⟩ := isSome_iff_exists.mp ((t.mem_keys key).mp (same ▸ held))
        rw [known, some_or, some_or]
      · rw [if_neg same]
    · rw [if_neg held, if_neg (by simp)]
      by_cases same : entry.1 = key
      · subst same
        rw [if_pos rfl, notMem_keys.mp held]
        simp [insert]
      · rw [if_neg same]
        simp [insert, Function.update_of_ne (Ne.symm same)]

/-- What is held stays, with or without a limit. -/
theorem lookup_foldl_offer (entries : List (κ × ν)) {key : κ} {value : ν}
    (held : t.lookup key = some value) : (entries.foldl (offer limit) t).lookup key = some value := by
  induction entries generalizing t with
  | nil => exact held
  | cons entry rest ih =>
    refine ih ?_
    unfold offer
    split
    · exact held
    rename_i fresh
    split
    · exact held
    · refine Eq.trans (Function.update_of_ne ?_ _ _) held
      rintro rfl
      rw [notMem_keys.mp fresh] at held
      cases held

theorem keys_subset_offer (t : Table κ ν) (entry : κ × ν) : t.keys ⊆ (t.offer limit entry).keys := by
  unfold offer
  split
  · exact Finset.Subset.refl _
  split
  · exact Finset.Subset.refl _
  · exact Finset.subset_insert _ _

theorem keys_subset_foldl_offer (entries : List (κ × ν)) (t : Table κ ν) :
    t.keys ⊆ (entries.foldl (offer limit) t).keys := by
  induction entries generalizing t with
  | nil => exact Finset.Subset.refl _
  | cons entry rest ih => exact (keys_subset_offer limit t entry).trans (ih _)

theorem keys_foldl_offer_none (t : Table κ ν) :
    (entries.foldl (offer none) t).keys = t.keys ∪ (entries.map (·.1)).toFinset := by
  ext k
  rw [Table.mem_keys, lookup_foldl_offer_none, isSome_or, Bool.or_eq_true, ← Table.mem_keys, Finset.mem_union,
    ← ne_none_iff_isSome, Ne, firstOf_eq_none_iff]
  simp

theorem card_foldl_offer_le {limit : Nat} (bounded : t.keys.card ≤ limit) :
    (entries.foldl (offer (some limit)) t).keys.card ≤ limit := by
  induction entries generalizing t with
  | nil => exact bounded
  | cons entry rest ih =>
    refine ih ?_
    unfold offer
    split
    · exact bounded
    split_ifs with room
    · exact bounded
    · rw [any_some, decide_eq_true_eq, Nat.not_le] at room
      exact (Finset.card_insert_le _ _).trans room

/-- A limit makes no difference exactly when it is never passed. -/
theorem foldl_offer_limit_iff {limit : Nat} (bounded : t.keys.card ≤ limit) :
    entries.foldl (offer none) t = entries.foldl (offer (some limit)) t ↔ (entries.foldl (offer none) t).keys.card ≤ limit := by
  constructor
  · intro same
    rw [same]
    exact card_foldl_offer_le entries bounded
  · intro small
    induction entries generalizing t with
    | nil => rfl
    | cons entry rest ih =>
      rw [foldl_cons] at small
      have same : t.offer none entry = t.offer (some limit) entry := by
        unfold offer
        by_cases held : entry.1 ∈ t.keys
        · rw [if_pos held, if_pos held]
        rw [if_neg held, if_neg held, if_neg (by simp)]
        -- the new key has room, since it is among the keys at the end
        have grown := Finset.card_le_card (keys_subset_foldl_offer none rest (t.offer none entry))
        have inserted : (t.offer none entry).keys = Insert.insert entry.1 t.keys := by
          unfold offer
          rw [if_neg held, if_neg (by simp)]
          rfl
        rw [inserted, Finset.card_insert_of_notMem held] at grown
        have room : t.keys.card < limit := by omega
        rw [if_neg (by simpa using room)]
      rw [foldl_cons, foldl_cons, ← same]
      refine ih ?_ small
      exact (Finset.card_le_card (keys_subset_foldl_offer none rest _)).trans small

end Rarpar.Table

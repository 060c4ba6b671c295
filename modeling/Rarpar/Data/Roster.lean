import Mathlib.Data.List.Nodup

namespace Rarpar
open List

/-! Records in a vector, found by their keys. -/

namespace Roster
variable {α κ : Type*} [DecidableEq κ] (key : α → κ)

def find (k : κ) (records : List α) : Option α := records.find? fun r => key r = k

def position (k : κ) (records : List α) : Option Nat := records.findIdx? fun r => key r = k

/-- No two records share a key. -/
def Distinct (records : List α) : Prop := (records.map key).Nodup

variable {key} {records : List α} {k : κ} {r : α} {i : Nat} {f : α → α}

theorem find_eq_some (found : find key k records = some r) : r ∈ records ∧ key r = k :=
  ⟨mem_of_find?_eq_some found, by simpa only [decide_eq_true_eq] using find?_some found⟩

theorem find_eq_none : find key k records = none ↔ ∀ r ∈ records, key r ≠ k := by
  simp only [find, find?_eq_none, decide_eq_true_eq]

theorem Distinct.find_of_mem (distinct : Distinct key records) (member : r ∈ records) :
    find key (key r) records = some r := by
  cases found : find key (key r) records with
  | none => exact absurd rfl (find_eq_none.mp found r member)
  | some other =>
    obtain ⟨there, same⟩ := find_eq_some found
    rw [inj_on_of_nodup_map distinct there member same]

theorem Distinct.find_of_getElem? (distinct : Distinct key records) (at_i : records[i]? = some r) :
    find key (key r) records = some r :=
  distinct.find_of_mem (mem_of_getElem? at_i)

theorem getElem?_modify_self (at_i : records[i]? = some r) : (records.modify i f)[i]? = some (f r) := by
  rw [getElem?_modify, at_i]
  exact congrArg some (if_pos rfl)

theorem getElem?_modify_of_ne {j : Nat} (other : i ≠ j) : (records.modify i f)[j]? = records[j]? := by
  rw [getElem?_modify]
  cases records[j]? with
  | none => rfl
  | some r => exact congrArg some (if_neg other)

omit [DecidableEq κ] in
theorem map_key_modify (keeps : ∀ r, key (f r) = key r) : (records.modify i f).map key = records.map key := by
  refine ext_getElem? fun j => ?_
  rw [getElem?_map, getElem?_map, getElem?_modify]
  cases records[j]? <;> grind

theorem mem_modify (at_i : records[i]? = some r) {x : α} (member : x ∈ records.modify i f) :
    x = f r ∨ x ∈ records := by
  obtain ⟨j, at_j⟩ := mem_iff_getElem?.mp member
  by_cases here : i = j
  · subst here
    exact .inl (Option.some.inj (at_j.symm.trans (getElem?_modify_self at_i)))
  · rw [getElem?_modify_of_ne here] at at_j
    exact .inr (mem_of_getElem? at_j)

/-- A change of one record is seen under its key only. -/
theorem Distinct.find_modify (distinct : Distinct key records) (keeps : ∀ r, key (f r) = key r)
    (at_i : records[i]? = some r) :
    find key k (records.modify i f) = if key r = k then some (f r) else find key k records := by
  have distinct' : Distinct key (records.modify i f) := by
    rw [Distinct, map_key_modify keeps]
    exact distinct
  by_cases own : key r = k
  · rw [if_pos own, ← own, ← keeps r]
    exact distinct'.find_of_getElem? (getElem?_modify_self at_i)
  · rw [if_neg own]
    cases found : find key k records with
    | none =>
      refine find_eq_none.mpr fun x member => ?_
      rcases mem_modify at_i member with rfl | old
      · exact fun same => own (keeps r ▸ same)
      · exact find_eq_none.mp found x old
    | some x =>
      obtain ⟨member, rfl⟩ := find_eq_some found
      obtain ⟨j, at_j⟩ := mem_iff_getElem?.mp member
      have other : i ≠ j := by
        rintro rfl
        exact own (congrArg key (Option.some.inj (at_i.symm.trans at_j)))
      exact distinct'.find_of_getElem? ((getElem?_modify_of_ne other).trans at_j)

theorem find_append (k : κ) (records : List α) (r : α) :
    find key k (records ++ [r]) = (find key k records).or (if key r = k then some r else none) := by
  by_cases own : key r = k <;> simp [find, own]

theorem find_map (keeps : ∀ r, key (f r) = key r) (k : κ) (records : List α) :
    find key k (records.map f) = (find key k records).map f := by
  simp [find, find?_map, Function.comp_def, keeps]

theorem find?_congr {p q : α → Bool} (same : ∀ r ∈ records, p r = q r) : records.find? p = records.find? q := by
  induction records with
  | nil => rfl
  | cons r rest ih =>
    rw [find?_cons, find?_cons, same r mem_cons_self,
      ih fun x later => same x (mem_cons_of_mem r later)]

theorem position_eq_some (found : position key k records = some i) :
    ∃ r, records[i]? = some r ∧ key r = k := by
  obtain ⟨inside, own, _⟩ := findIdx?_eq_some_iff_getElem.mp found
  exact ⟨records[i], getElem?_eq_getElem inside, of_decide_eq_true own⟩

theorem position_eq_none : position key k records = none ↔ find key k records = none := by
  simp only [position, findIdx?_eq_none_iff, find_eq_none, decide_eq_false_iff_not, ne_eq]

end Roster
end Rarpar

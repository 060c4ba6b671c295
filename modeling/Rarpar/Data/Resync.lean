import Mathlib.Init

namespace Rarpar.Resync
open Option
variable {β : Type}

/-! Scans that look for a candidate, take what is accepted as a whole and step a little behind what is not. -/

/-- The entries a scan from this position takes. `next` finds candidates, `judge` accepts them and `size` says how
far an accepted one reaches. -/
inductive Walk (next : Nat → Option Nat) (judge : Nat → Option β) (size : β → Nat) (step : Nat) : Nat → List (Nat × β) → Prop
  | stop {pos : Nat} (free : next pos = none) : Walk next judge size step pos []
  | accept {pos place : Nat} {entry : β} {rest : List (Nat × β)} (found : next pos = some place) (judged : judge place = some entry)
      (behind : Walk next judge size step (place + size entry) rest) : Walk next judge size step pos ((place, entry) :: rest)
  | refuse {pos place : Nat} {rest : List (Nat × β)} (found : next pos = some place) (judged : judge place = none)
      (behind : Walk next judge size step (place + step) rest) : Walk next judge size step pos rest

variable {next : Nat → Option Nat} {judge : Nat → Option β} {size : β → Nat} {step : Nat} {pos : Nat}

variable {entries : List (Nat × β)}

/-- A scan starts at the first candidate. -/
theorem Walk.of_next {pos' : Nat} (same : next pos = next pos')
    (walk : Walk next judge size step pos' entries) : Walk next judge size step pos entries := by
  cases walk with
  | stop free => exact .stop (same.trans free)
  | accept found judged behind => exact .accept (same.trans found) judged behind
  | refuse found judged behind => exact .refuse (same.trans found) judged behind

section
variable (walk : Walk next judge size step pos entries)
include walk

/-- Everything a scan takes was accepted. -/
theorem Walk.judged : ∀ entry ∈ entries, judge entry.1 = some entry.2 := by
  induction walk with
  | stop => nofun
  | accept _ judged _ ih => exact List.forall_mem_cons.mpr ⟨judged, ih⟩
  | refuse _ _ _ ih => exact ih

/-- A stricter judge takes the same entries exactly if it would take each of them. -/
theorem Walk.filter_iff {strict : β → Bool} :
    Walk next (fun place => (judge place).filter strict) size step pos entries ↔ ∀ entry ∈ entries, strict entry.2 = true := by
  constructor
  · intro stricter entry inside
    exact (filter_eq_some_iff.mp (stricter.judged entry inside)).2
  · intro all
    induction walk with
    | stop free => exact .stop free
    | accept found judged _ ih =>
      obtain ⟨here, later⟩ := List.forall_mem_cons.mp all
      exact .accept found (filter_eq_some_iff.mpr ⟨judged, here⟩) (ih later)
    | refuse found judged _ ih =>
      refine .refuse found ?_ (ih all)
      rw [judged]
      rfl

/-- A scan takes the candidate that is accepted. -/
theorem Walk.of_accept {place : Nat} {entry : β}
    (found : next pos = some place) (judged : judge place = some entry) :
    ∃ rest, entries = (place, entry) :: rest ∧ Walk next judge size step (place + size entry) rest := by
  cases walk with
  | stop free => exact absurd (free.symm.trans found) nofun
  | accept found' judged' behind =>
    obtain rfl := some.inj (found.symm.trans found')
    obtain rfl := some.inj (judged.symm.trans judged')
    exact ⟨_, rfl, behind⟩
  | refuse found' judged' =>
    obtain rfl := some.inj (found.symm.trans found')
    exact absurd (judged.symm.trans judged') nofun

/-- A scan steps behind the candidate that is refused. -/
theorem Walk.of_refuse {place : Nat}
    (found : next pos = some place) (judged : judge place = none) : Walk next judge size step (place + step) entries := by
  cases walk with
  | stop free => exact absurd (free.symm.trans found) nofun
  | accept found' judged' =>
    obtain rfl := some.inj (found.symm.trans found')
    exact absurd (judged.symm.trans judged') nofun
  | refuse found' judged' behind =>
    obtain rfl := some.inj (found.symm.trans found')
    exact behind

omit walk in
theorem Walk.unique {left right : List (Nat × β)} (first : Walk next judge size step pos left)
    (second : Walk next judge size step pos right) : left = right := by
  induction first generalizing right with
  | stop free =>
    cases second with
    | stop => rfl
    | accept found | refuse found => exact absurd (free.symm.trans found) nofun
  | accept found judged _ ih =>
    obtain ⟨rest, rfl, behind⟩ := second.of_accept found judged
    rw [ih behind]
  | refuse found judged _ ih => exact ih (second.of_refuse found judged)

/-- A scan that accepts no candidate takes nothing. -/
theorem Walk.eq_nil
    (onward : ∀ {pos place : Nat}, next pos = some place → pos ≤ place) (none : ∀ place, pos ≤ place → judge place = none) :
    entries = [] := by
  induction walk with
  | stop => rfl
  | accept found judged => exact absurd ((none _ (onward found)).symm.trans judged) nofun
  | refuse found _ _ ih => exact ih fun place later => none place (by have := onward found; omega)

end

/-- A scan ends if its candidates do. -/
theorem Walk.total {bound : Nat} (onward : ∀ {pos place : Nat}, next pos = some place → pos ≤ place ∧ place < bound)
    (positive : 0 < step) (long : ∀ {place entry}, judge place = some entry → 0 < size entry) (pos : Nat) :
    ∃ entries, Walk next judge size step pos entries ∧ entries.length ≤ bound - pos := by
  induction left : bound - pos using Nat.strongRecOn generalizing pos with
  | ind left ih =>
    rcases found : next pos with _ | place
    · exact ⟨[], .stop found, Nat.zero_le _⟩
    · obtain ⟨later, inside⟩ := onward found
      rcases judged : judge place with _ | entry
      · obtain ⟨entries, walk, few⟩ := ih _ (by omega) (place + step) rfl
        exact ⟨entries, .refuse found judged walk, by omega⟩
      · have some := long judged
        obtain ⟨entries, walk, few⟩ := ih _ (by omega) (place + size entry) rfl
        refine ⟨(place, entry) :: entries, .accept found judged walk, ?_⟩
        rw [List.length_cons]
        omega

end Rarpar.Resync

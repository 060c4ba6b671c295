import Mathlib.Data.List.Infix

namespace Rarpar.Search
open List
variable {α : Type} [DecidableEq α]

/-! Occurrences of a pattern in a list. -/

/-- The pattern stands at this index. -/
def occursAt (pattern list : List α) (i : Nat) : Bool := (list.drop i).take pattern.length = pattern

/-- The first index at or behind `pos` at which the pattern stands. -/
def firstFrom (pattern list : List α) (pos : Nat) : Option Nat :=
  (List.range' pos (list.length - pos)).find? (occursAt pattern list)

variable {pattern list : List α}

theorem occursAt_length {i : Nat} (occurs : occursAt pattern list i = true) (nonempty : pattern ≠ []) :
    i + pattern.length ≤ list.length := by
  have same := congrArg length (of_decide_eq_true occurs)
  have positive := length_pos_iff.mpr nonempty
  rw [length_take, length_drop] at same
  omega

section
variable (nonempty : pattern ≠ []) {pos : Nat}
include nonempty

theorem firstFrom_eq_some_iff {i : Nat} : firstFrom pattern list pos = some i ↔
    pos ≤ i ∧ occursAt pattern list i = true ∧ ∀ j, pos ≤ j → j < i → occursAt pattern list j = false := by
  unfold firstFrom
  rw [find?_range'_eq_some]
  constructor
  · rintro ⟨occurs, inside, before⟩
    rw [mem_range'_1] at inside
    exact ⟨inside.1, occurs, fun j low high => by simpa using before j low high⟩
  · rintro ⟨low, occurs, before⟩
    have length := occursAt_length occurs nonempty
    have positive := length_pos_iff.mpr nonempty
    exact ⟨occurs, mem_range'_1.mpr (by omega), fun j low high => by simpa using before j low high⟩

theorem firstFrom_eq_none_iff : firstFrom pattern list pos = none ↔
    ∀ j, pos ≤ j → occursAt pattern list j = false := by
  unfold firstFrom
  rw [find?_eq_none]
  constructor
  · intro none j low
    by_contra occurs
    have occurs := Bool.of_not_eq_false occurs
    have length := occursAt_length occurs nonempty
    have positive := length_pos_iff.mpr nonempty
    exact none j (mem_range'_1.mpr (by omega)) occurs
  · intro none j inside
    rw [none j (mem_range'_1.mp inside).1]
    exact Bool.false_ne_true

theorem firstFrom_short (short : list.length < pos + pattern.length) : firstFrom pattern list pos = none := by
  refine (firstFrom_eq_none_iff nonempty).mpr fun j low => ?_
  by_contra occurs
  have inside := occursAt_length (Bool.of_not_eq_false occurs) nonempty
  omega

/-- Indices without the pattern can be left out. -/
theorem firstFrom_skip {pos' : Nat} (later : pos ≤ pos')
    (free : ∀ j, pos ≤ j → j < pos' → occursAt pattern list j = false) :
    firstFrom pattern list pos = firstFrom pattern list pos' := by
  refine Option.ext fun i => ?_
  rw [firstFrom_eq_some_iff nonempty, firstFrom_eq_some_iff nonempty]
  grind

theorem firstFrom_self (occurs : occursAt pattern list pos = true) : firstFrom pattern list pos = some pos :=
  (firstFrom_eq_some_iff nonempty).mpr ⟨Nat.le_refl pos, occurs, fun _ low high => absurd high (Nat.not_lt.mpr low)⟩

theorem firstFrom_succ (free : occursAt pattern list pos = false) :
    firstFrom pattern list pos = firstFrom pattern list (pos + 1) :=
  firstFrom_skip nonempty (Nat.le_succ pos) fun j low high => by
    obtain rfl : j = pos := by omega
    exact free

end

end Rarpar.Search

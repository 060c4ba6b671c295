import Mathlib.Data.List.Basic

namespace Rarpar
open List

/-- One component of a relative path, read lexically. -/
inductive Move (α : Type*)
  | stay
  | up
  | down (name : α)
deriving DecidableEq

namespace Move
variable {α : Type*}

def isUp : Move α → Bool
  | up => true
  | _ => false

def isDown : Move α → Bool
  | down _ => true
  | _ => false

/-- Walking from a directory, named innermost first; `none` is a step above the root. -/
def walk : List α → List (Move α) → Option (List α)
  | dir, [] => some dir
  | dir, stay :: rest => walk dir rest
  | [], up :: _ => none
  | _ :: dir, up :: rest => walk dir rest
  | dir, down name :: rest => walk (name :: dir) rest

variable {dir : List α} {moves more : List (Move α)}

theorem walk_append : walk dir (moves ++ more) = (walk dir moves).bind (walk · more) := by
  induction moves generalizing dir with
  | nil => rfl
  | cons move rest ih =>
    cases move with
    | stay => exact ih
    | down name => exact ih
    | up =>
      cases dir with
      | nil => rfl
      | cons _ _ => exact ih

/-- As many steps up as there are directories never leave the root. -/
theorem walk_isSome (few : moves.countP isUp ≤ dir.length) : (walk dir moves).isSome := by
  induction moves generalizing dir with
  | nil => rfl
  | cons move rest ih =>
    cases move with
    | stay => exact ih few
    | down name => exact ih (Nat.le_succ_of_le few)
    | up =>
      rw [countP_cons_of_pos rfl] at few
      cases dir with
      | nil => exact absurd few (by simp)
      | cons _ _ => exact ih (Nat.le_of_succ_le_succ few)

theorem walk_replicate_up {count : Nat} (many : dir.length < count) : walk dir (replicate count up) = none := by
  induction count generalizing dir with
  | zero => cases many
  | succ count ih =>
    cases dir with
    | nil => rfl
    | cons _ _ => exact ih (Nat.lt_of_succ_lt_succ many)

/-- Without a step up the depth grows by the names. -/
theorem walk_down (dir : List α) (level : ∀ move ∈ moves, move.isUp = false) :
    ∃ dir', walk dir moves = some dir' ∧ dir'.length = dir.length + moves.countP isDown := by
  induction moves generalizing dir with
  | nil => exact ⟨dir, rfl, rfl⟩
  | cons move rest ih =>
    have later : ∀ move ∈ rest, move.isUp = false := fun move there => level move (mem_cons_of_mem _ there)
    cases move with
    | stay =>
      rw [countP_cons_of_neg (show ¬isDown stay = true from Bool.false_ne_true)]
      exact ih dir later
    | up => exact absurd (level up mem_cons_self) Bool.noConfusion
    | down name =>
      obtain ⟨dir', walked, length⟩ := ih (name :: dir) later
      refine ⟨dir', walked, ?_⟩
      rw [length, countP_cons_of_pos rfl, length_cons]
      omega

end Move
end Rarpar

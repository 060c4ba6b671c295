import Mathlib.Data.List.Basic

namespace Rarpar.Buffer
open List
variable {V : Type*} {cells : List (Nat × V)}

/-- Writes the listed cells of a buffer in order. -/
def write (cells : List (Nat × V)) (buffer : Nat → V) : Nat → V :=
  cells.foldl (fun buffer cell => Function.update buffer cell.1 cell.2) buffer

theorem write_of_not_mem {slot : Nat} (absent : ∀ cell ∈ cells, cell.1 ≠ slot)
    (buffer : Nat → V) : write cells buffer slot = buffer slot := by
  induction cells generalizing buffer with
  | nil => rfl
  | cons cell rest ih =>
    have other := (absent cell mem_cons_self).symm
    refine (ih (fun later member => absent later (mem_cons_of_mem cell member)) _).trans ?_
    exact Function.update_of_ne other _ _

/-- A cell that is written, and always with the same value, holds it. -/
theorem write_of_mem {slot : Nat} {value : V} (member : (slot, value) ∈ cells)
    (same : ∀ cell ∈ cells, cell.1 = slot → cell.2 = value) (buffer : Nat → V) : write cells buffer slot = value := by
  induction cells generalizing buffer with
  | nil => exact absurd member not_mem_nil
  | cons cell rest ih =>
    by_cases later : (slot, value) ∈ rest
    · exact ih later (fun next listed => same next (mem_cons_of_mem cell listed)) _
    · have here : cell = (slot, value) := ((mem_cons.mp member).resolve_right later).symm
      have absent : ∀ next ∈ rest, next.1 ≠ slot := by
        intro next listed equal
        have whole : next = (slot, value) := Prod.ext equal (same next (mem_cons_of_mem cell listed) equal)
        exact later (whole ▸ listed)
      refine (write_of_not_mem absent _).trans ?_
      rw [here]
      exact Function.update_self _ _ _

/-- A loop over `items` that writes the cell `key item`. -/
theorem write_map {α : Type*} {items : List α} (key : α → Nat) (value : α → V) (buffer : Nat → V) {item : α}
    (member : item ∈ items) (same : ∀ other ∈ items, key other = key item → value other = value item) :
    write (items.map fun item => (key item, value item)) buffer (key item) = value item := by
  have written : (key item, value item) ∈ items.map fun item => (key item, value item) :=
    mem_map.mpr ⟨item, member, rfl⟩
  refine write_of_mem written ?_ buffer
  intro cell listed equal
  obtain ⟨other, known, rfl⟩ := mem_map.mp listed
  exact same other known equal

theorem write_range {n : Nat} (value : Nat → V) (buffer : Nat → V) {i : Nat} (inside : i < n) :
    write ((range n).map fun i => (i, value i)) buffer i = value i :=
  write_map id value buffer (mem_range.mpr inside) fun _ _ equal => congrArg value equal

/-- The index triples of three nested loops. -/
def grid (a b c : Nat) : List (Nat × Nat × Nat) :=
  (List.range a).flatMap fun i => (List.range b).flatMap fun j => (List.range c).map fun k => (i, j, k)

theorem mem_grid {a b c i j k : Nat} : (i, j, k) ∈ grid a b c ↔ i < a ∧ j < b ∧ k < c := by
  simp [grid]

theorem write_grid {a b c i j k : Nat} (key : Nat → Nat → Nat → Nat) (value : Nat → Nat → Nat → V) (buffer : Nat → V)
    (inside : i < a ∧ j < b ∧ k < c)
    (same : ∀ {i' j' k'}, i' < a ∧ j' < b ∧ k' < c → key i' j' k' = key i j k → i' = i ∧ j' = j ∧ k' = k) :
    write ((grid a b c).map fun (i, j, k) => (key i j k, value i j k)) buffer (key i j k) = value i j k := by
  refine write_map (fun item => key item.1 item.2.1 item.2.2) (fun item => value item.1 item.2.1 item.2.2) buffer
    (mem_grid.mpr inside) ?_
  rintro ⟨i', j', k'⟩ member equal
  obtain ⟨rfl, rfl, rfl⟩ := same (mem_grid.mp member) equal
  rfl

end Rarpar.Buffer

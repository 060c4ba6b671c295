import Rarpar.Algebra.Accumulate
import Rarpar.ReedSolomon.AugmentedRows

namespace Rarpar
open Matrix Elimination Accumulate List Nat

namespace AugmentedRows
variable {n : Nat} {κ : Type*}

def tileGroup : Nat := 8

/-- Reduces the rows of one group against each other. `done` are the group rows whose
block is already an identity, `first` is the first column of the group. -/
def inGroupReduce (first : Fin n) (done : List (Fin n)) :
    List (Fin n) → AugmentedRows n κ → Except Nat (AugmentedRows n κ)
  | [], rows => .ok rows
  | row :: todo, rows => do
    let rows ← scalePivot row (done.foldl (fun rows i => addRow first row i ((rows row).left i) rows) rows)
    inGroupReduce first (done ++ [row]) todo
      (done.foldl (fun rows i => addRow row i row ((rows i).left row) rows) rows)

/-- Eliminates the group columns from one row outside the group. The coefficients are
read before the row changes. -/
def applyRow (first : Fin n) (group : List (Fin n)) (rows : AugmentedRows n κ) (t : Fin n) : AugmentedRows n κ :=
  (group.map fun j => (j, (rows t).left j)).foldl (fun rows entry => addRow first t entry.1 entry.2 rows) rows

def applyRankK (first : Fin n) (group : List (Fin n)) (rows : AugmentedRows n κ) : AugmentedRows n κ :=
  ((List.finRange n).filter (· ∉ group)).foldl (applyRow first group) rows

def reduceGroup (rows : AugmentedRows n κ) : List (Fin n) → Except Nat (AugmentedRows n κ)
  | [] => .ok rows
  | first :: group => do
    let rows ← inGroupReduce first [] (first :: group) rows
    return applyRankK first (first :: group) rows

/-- The pivot columns in groups of `tileGroup`. -/
def tileGroups (n : Nat) : List (List (Fin n)) :=
  (List.range ((n + (tileGroup - 1)) / tileGroup)).map fun t =>
    ((List.finRange n).drop (tileGroup * t)).take tileGroup

def invertAugmentedTiled (rows : AugmentedRows n κ) : Except Nat (AugmentedRows n κ) :=
  (tileGroups n).foldlM reduceGroup rows

variable {A : Matrix (Fin n) (Fin n) Word} {B : Matrix (Fin n) κ Word} {rows : AugmentedRows n κ} {group : List (Fin n)} {a : Nat}

/-- Steps that each finish a row of their own, while they may rely on rows that stay finished. -/
theorem foldl_finish (step : AugmentedRows n κ → Fin n → AugmentedRows n κ) (fixed : List (Fin n)) {b : Nat} {todo : List (Fin n)}
    (nodup : todo.Nodup) (apart : ∀ t ∈ todo, t ∉ fixed)
    (advance : ∀ rows, (∀ s ∈ fixed, RowState A B b b s (rows s)) → ∀ t, t ∉ fixed → RowState A B a a t (rows t) →
      RowState A B b b t (step rows t t) ∧ ∀ r, r ≠ t → step rows t r = rows r)
    (finished : ∀ s ∈ fixed, RowState A B b b s (rows s)) (waiting : ∀ t ∈ todo, RowState A B a a t (rows t)) :
    (∀ t ∈ todo, RowState A B b b t (todo.foldl step rows t)) ∧ ∀ t, t ∉ todo → todo.foldl step rows t = rows t := by
  induction todo generalizing rows with
  | nil => simp
  | cons t rest ih =>
    obtain ⟨fresh, nodup⟩ := nodup_cons.mp nodup
    obtain ⟨away, apart⟩ := forall_mem_cons.mp apart
    obtain ⟨done, frame⟩ := advance rows finished t away (waiting t mem_cons_self)
    obtain ⟨later, kept⟩ := @ih (step rows t) nodup apart
      (fun s member => by
        rw [frame s fun same => away (same ▸ member)]
        exact finished s member)
      (fun r member => by
        rw [frame r fun same => fresh (same ▸ member)]
        exact waiting r (mem_cons_of_mem t member))
    refine ⟨forall_mem_cons.mpr ⟨?_, later⟩, ?_⟩
    · rw [foldl_cons, kept t fresh]
      exact done
    · intro r absent
      rw [mem_cons, not_or] at absent
      rw [foldl_cons, kept r absent.2, frame r absent.1]

/-- One finished row clears its column from each listed row. -/
theorem foldl_clear_column {col : Fin n} {todo : List (Fin n)} (nodup : todo.Nodup) (outside : col ∉ todo)
    (pivot : RowState A B (col + 1) (col + 1) col (rows col))
    (stage : ∀ r ∈ todo, RowState A B col col r (rows r)) :
    let rows' := todo.foldl (fun rows r => addRow col r col ((rows r).left col) rows) rows
    (∀ r ∈ todo, RowState A B (col + 1) (col + 1) r (rows' r)) ∧ ∀ r, r ∉ todo → rows' r = rows r := by
  refine foldl_finish (fun rows r => addRow col r col _ rows) [col] nodup (fun t member same => outside (mem_singleton.mp same ▸ member))
    (fun now finished t away waiting => ⟨?_, fun r apart => addRow_of_ne _ apart⟩)
    (fun s member => mem_singleton.mp member ▸ pivot) stage
  exact addRow_state (waiting.weaken (le_succ col)) (finished col (mem_singleton_self col)) (lt_succ_self col)
    (fun same => away (mem_singleton.mpr same)) le_rfl

/-- The finished rows of a run clear their columns from one row, one after another. -/
theorem foldl_clear_row {b : Nat} {tail target : Fin n} {sources : List (Fin n)} (run : Consecutive a sources)
    (inside : a + sources.length ≤ b) (finished : ∀ s ∈ sources, RowState A B b b s (rows s)) (head : tail ≤ a)
    (outside : target ∉ sources) (reduced : RowState A B a b target (rows target)) :
    let rows' := sources.foldl (fun rows s => addRow tail target s ((rows target).left s) rows) rows
    RowState A B (a + sources.length) b target (rows' target) ∧ ∀ t, t ≠ target → rows' t = rows t := by
  induction sources generalizing rows a with
  | nil => simpa using reduced
  | cons s rest ih =>
    obtain ⟨first, run⟩ := run.cons
    subst first
    rw [mem_cons, not_or] at outside
    rw [length_cons] at inside ⊢
    have frame (t : Fin n) (apart : t ≠ target) : addRow tail target s ((rows target).left s) rows t = rows t :=
      addRow_of_ne _ apart
    have cleared := addRow_state reduced (finished s mem_cons_self) (by omega) outside.1 head
    obtain ⟨later, kept⟩ := @ih _ _ run (by omega)
      (fun t member => by
        rw [frame t fun same => outside.2 (same ▸ member)]
        exact finished t (mem_cons_of_mem s member))
      (by omega) outside.2 cleared
    refine ⟨?_, ?_⟩
    · rw [add_right_comm] at later
      exact later
    · intro t apart
      rw [foldl_cons, kept t apart, frame t apart]

/-- Reading the coefficients first changes nothing, because the finished block is an
identity. -/
theorem applyRow_eq {b : Nat} {first t : Fin n} (nodup : group.Nodup)
    (inside : ∀ s ∈ group, s < b) (finished : ∀ s ∈ group, RowState A B b b s (rows s)) (outside : t ∉ group) :
    applyRow first group rows t =
      group.foldl (fun rows s => addRow first t s ((rows t).left s) rows) rows := by
  have run (todo : List (Fin n)) (subset : todo ⊆ group) (nodup : todo.Nodup) (now : AugmentedRows n κ)
      (same : ∀ s ∈ todo, (now t).left s = (rows t).left s) (kept : ∀ r, r ≠ t → now r = rows r) :
      (todo.map fun j => (j, (rows t).left j)).foldl (fun rows entry => addRow first t entry.1 entry.2 rows) now =
        todo.foldl (fun rows s => addRow first t s ((rows t).left s) rows) now := by
    induction todo generalizing now with
    | nil => rfl
    | cons s rest ih =>
      obtain ⟨fresh, nodup⟩ := nodup_cons.mp nodup
      have member : s ∈ group := subset mem_cons_self
      have apart : s ≠ t := fun equal => outside (equal ▸ member)
      have source : RowState A B b b s (now s) := by
        rw [kept s apart]
        exact finished s member
      rw [map_cons, foldl_cons, foldl_cons, ← same s mem_cons_self]
      refine ih (fun r listed => subset (mem_cons_of_mem s listed)) nodup _ ?_ ?_
      · intro r listed
        have other : s ≠ r := fun equal => fresh (equal ▸ listed)
        rw [addRow_entry source (inside r (subset (mem_cons_of_mem s listed))) other]
        exact same r (mem_cons_of_mem s listed)
      · intro r other
        rw [addRow_of_ne _ other]
        exact kept r other
  exact run group (fun _ member => member) nodup rows (fun _ _ => rfl) fun _ _ => rfl

theorem applyRankK_stage {first : Fin n} (run : Consecutive a group)
    (head : (first : Nat) = a)
    (inGroup : ∀ s ∈ group, RowState A B (a + group.length) (a + group.length) s (rows s))
    (outside : ∀ t, t ∉ group → RowState A B a a t (rows t)) :
    Stage A B (a + group.length) (applyRankK first group rows) := by
  have listed (t : Fin n) : t ∈ (finRange n).filter (· ∉ group) ↔ t ∉ group := by simp
  have inside (s : Fin n) (member : s ∈ group) : (s : Nat) < a + group.length := ((run.mem_iff s).mp member).2
  obtain ⟨later, kept⟩ := foldl_finish (applyRow first group) group ((nodup_finRange n).filter _) (fun t => (listed t).mp)
    (fun now inGroup t away waiting => by
      rw [applyRow_eq run.nodup inside inGroup away]
      exact foldl_clear_row run le_rfl inGroup head.le away (waiting.weaken (le_add_right a group.length)))
    inGroup fun t member => outside t ((listed t).mp member)
  intro r
  by_cases member : r ∈ group
  · rw [applyRankK, kept r fun absent => (listed r).mp absent member]
    exact inGroup r member
  · exact later r ((listed r).mpr member)

/-- The rows outside the group wait at stage `a` while the group is reduced. -/
theorem inGroupReduce_reached {first : Fin n} {done todo : List (Fin n)}
    (run : Consecutive a (done ++ todo)) (head : (first : Nat) = a)
    (regular : ∀ k ≤ a + done.length, LeadingRegular A k)
    (finished : ∀ s ∈ done, RowState A B (a + done.length) (a + done.length) s (rows s))
    (waiting : ∀ t, t ∉ done → RowState A B a a t (rows t)) :
    Reached A (a + (done ++ todo).length)
      (fun rows' => (∀ s ∈ done ++ todo, RowState A B (a + (done ++ todo).length) (a + (done ++ todo).length) s (rows' s)) ∧
        ∀ t, t ∉ done ++ todo → RowState A B a a t (rows' t))
      (inGroupReduce first done todo rows) := by
  induction todo generalizing done rows with
  | nil =>
    rw [append_nil]
    exact ⟨regular, finished, waiting⟩
  | cons row todo ih =>
    have doneRun := run.left
    have index := run.right.cons.1
    have fresh : row ∉ done := fun member => by
      have := ((doneRun.mem_iff row).mp member).2
      omega
    obtain ⟨forward, forwardFrame⟩ := foldl_clear_row doneRun le_rfl finished head.le fresh
      ((waiting row fresh).weaken (le_add_right a done.length))
    rw [inGroupReduce, append_cons]
    rw [← index] at forward regular finished
    refine (scalePivot_reached forward regular).bind fun rows' regular' reached => ?_
    obtain ⟨pivot, frame⟩ := reached
    have before (t : Fin n) (other : t ≠ row) : rows' t = rows t := by rw [frame t other, forwardFrame t other]
    obtain ⟨back, backFrame⟩ := foldl_clear_column doneRun.nodup fresh pivot
      (fun s member => by
        rw [before s fun same => fresh (same ▸ member)]
        exact finished s member)
    have count : a + (done ++ [row]).length = row + 1 := by
      rw [length_append, length_singleton, ← add_assoc, index]
    refine ih (by rwa [← append_cons]) (by rwa [count]) ?_ ?_
    · intro s member
      rw [count]
      rcases mem_append.mp member with member | member
      · exact back s member
      · rw [mem_singleton.mp member, backFrame row fresh]
        exact pivot
    · intro t absent
      rw [mem_append, mem_singleton, not_or] at absent
      rw [backFrame t absent.1, before t absent.2]
      exact waiting t absent.1

theorem reduceGroup_reached (run : Consecutive a group)
    (regular : ∀ k ≤ a, LeadingRegular A k) (stage : Stage A B a rows) :
    Reached A (a + group.length) (Stage A B (a + group.length)) (reduceGroup rows group) := by
  cases group with
  | nil => exact ⟨regular, stage⟩
  | cons first rest =>
    have head := run.cons.1
    have reduced := @inGroupReduce_reached _ _ A B rows a first [] (first :: rest) run head regular (by simp) fun t _ => stage t
    rw [reduceGroup]
    refine reduced.bind fun rows' regular' reached => ⟨regular', ?_⟩
    exact applyRankK_stage run head reached.1 reached.2

theorem foldlM_reduceGroup_reached {groups : List (List (Fin n))} (run : Consecutive a groups.flatten)
    (regular : ∀ k ≤ a, LeadingRegular A k) (stage : Stage A B a rows) :
    Reached A (a + groups.flatten.length) (Stage A B (a + groups.flatten.length)) (groups.foldlM reduceGroup rows) := by
  induction groups generalizing a rows with
  | nil => exact ⟨regular, stage⟩
  | cons group rest ih =>
    rw [flatten_cons] at run ⊢
    rw [foldlM_cons, length_append, ← add_assoc]
    exact (reduceGroup_reached run.left regular stage).bind fun rows' regular' stage' =>
      ih run.right regular' stage'

theorem tileGroups_flatten (n : Nat) : (tileGroups n).flatten = finRange n := by
  have first (count : Nat) :
      ((range count).map fun t => ((finRange n).drop (tileGroup * t)).take tileGroup).flatten =
        (finRange n).take (tileGroup * count) := by
    induction count with
    | zero => simp
    | succ count ih =>
      rw [range_succ, map_append, flatten_append, ih, mul_succ, take_add]
      simp
  rw [tileGroups, first, take_of_length_le]
  rw [length_finRange, tileGroup]
  omega

/-- The tiled inversion is an elimination without row exchanges. -/
theorem invertAugmentedTiled_outcome (A : Matrix (Fin n) (Fin n) Word) (B : Matrix (Fin n) κ Word) :
    Outcome A B (invertAugmentedTiled fun r => ⟨A r, B r⟩) := by
  have run : Consecutive 0 (tileGroups n).flatten := by
    rw [tileGroups_flatten]
    exact consecutive_finRange n
  have reached := foldlM_reduceGroup_reached run (A := A) (B := B)
    (fun k le => le_zero.mp le ▸ leadingRegular_zero A) (RowState.start A B)
  rwa [tileGroups_flatten, length_finRange, zero_add] at reached

end AugmentedRows
end Rarpar

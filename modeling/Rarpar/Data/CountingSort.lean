import Mathlib.Data.List.Count
import Mathlib.Data.List.Induction
import Mathlib.Order.Nat

namespace Rarpar.CountingSort
open List Function
variable {α : Type*} (keys : List Nat)

/-- Counts each key one cell to the right. -/
def tally (keys : List Nat) : Nat → Nat :=
  keys.foldl (fun counts key => Function.update counts (key + 1) (counts (key + 1) + 1)) fun _ => 0

def runningSums (cells : Nat) (counts : Nat → Nat) : Nat → Nat :=
  (List.range cells).foldl (fun counts at_ => Function.update counts (at_ + 1) (counts (at_ + 1) + counts at_)) counts

/-- The first position of each cell, and the number of entries past the last one. -/
def starts (keys : List Nat) (cells : Nat) : Nat → Nat := runningSums cells (tally keys)

/-- Puts one entry at the cursor of its cell. -/
def put (state : (Nat → Nat) × (Nat → α)) (entry : Nat × α) : (Nat → Nat) × (Nat → α) :=
  (Function.update state.1 entry.1 (state.1 entry.1 + 1), Function.update state.2 (state.1 entry.1) entry.2)

def place (entries : List (Nat × α)) (cursor : Nat → Nat) (placed : Nat → α) : (Nat → Nat) × (Nat → α) :=
  entries.foldl put (cursor, placed)

theorem place_concat (front : List (Nat × α)) (entry : Nat × α) (cursor : Nat → Nat) (placed : Nat → α) :
    place (front ++ [entry]) cursor placed = put (place front cursor placed) entry := by
  rw [place, foldl_append, foldl_cons, foldl_nil, place]

theorem tally_eq (c : Nat) : tally keys c = (keys.map (· + 1)).count c := by
  have loop (counts : Nat → Nat) : keys.foldl (fun counts key => update counts (key + 1) (counts (key + 1) + 1)) counts c =
      counts c + (keys.map (· + 1)).count c := by
    induction keys generalizing counts with
    | nil => rfl
    | cons head rest ih =>
      rw [foldl_cons, ih, map_cons, count_cons, update_apply]
      grind
  exact (loop fun _ => 0).trans (Nat.zero_add _)

theorem tally_succ (key : Nat) : tally keys (key + 1) = keys.count key :=
  (tally_eq keys (key + 1)).trans (count_map_of_injective keys _ Nat.succ_injective key)

variable {cells c : Nat}

theorem runningSums_concat (cells : Nat) (counts : Nat → Nat) :
    runningSums (cells + 1) counts = update (runningSums cells counts) (cells + 1)
      (runningSums cells counts (cells + 1) + runningSums cells counts cells) := by
  rw [runningSums, range_succ, foldl_append]
  rfl

theorem runningSums_of_gt (counts : Nat → Nat) (above : cells < c) :
    runningSums cells counts c = counts c := by
  induction cells with
  | zero => rfl
  | succ cells ih =>
    have other : c ≠ cells + 1 := by omega
    rw [runningSums_concat, update_of_ne other, ih (by omega)]

theorem runningSums_succ (counts : Nat → Nat) (inside : c < cells) :
    runningSums cells counts (c + 1) = runningSums cells counts c + counts (c + 1) := by
  induction cells with
  | zero => exact absurd inside (Nat.not_lt_zero c)
  | succ cells ih =>
    have before : c ≠ cells + 1 := by omega
    rw [runningSums_concat, update_of_ne before]
    rcases Nat.lt_succ_iff_lt_or_eq.mp inside with earlier | rfl
    · have other : c + 1 ≠ cells + 1 := by omega
      rw [update_of_ne other, ih earlier]
    · rw [update_self, runningSums_of_gt counts (Nat.lt_succ_self c), Nat.add_comm]

/-- Each cell is as long as its key is frequent. -/
theorem starts_succ (inside : c < cells) :
    starts keys cells (c + 1) = starts keys cells c + keys.count c := by
  rw [starts, runningSums_succ _ inside, tally_succ]

theorem starts_mono {a b : Nat} (le : a ≤ b) (bound : b ≤ cells) :
    starts keys cells a ≤ starts keys cells b := by
  induction le with
  | refl => exact le_rfl
  | step _ ih =>
    rw [starts_succ keys bound]
    exact (ih (by omega)).trans (Nat.le_add_right _ _)

theorem starts_zero (cells : Nat) : starts keys cells 0 = 0 := by
  have first (counts : Nat → Nat) (cells : Nat) : runningSums cells counts 0 = counts 0 := by
    induction cells with
    | zero => rfl
    | succ cells ih =>
      rw [runningSums_concat, update_of_ne (Nat.zero_ne_add_one cells), ih]
  rw [starts, first, tally_eq]
  exact count_eq_zero.mpr (by simp)

theorem countP_lt_succ (c : Nat) : keys.countP (· < c + 1) = keys.countP (· < c) + keys.count c := by
  induction keys with
  | nil => rfl
  | cons key rest ih =>
    simp only [countP_cons, count_cons, ih, decide_eq_true_eq, beq_iff_eq]
    split <;> split <;> split <;> omega

/-- A cell starts behind the entries with a smaller key. -/
theorem starts_eq_countP (bound : c ≤ cells) : starts keys cells c = keys.countP (· < c) := by
  induction c with
  | zero => simp [starts_zero]
  | succ c ih => rw [starts_succ keys bound, ih (by omega), countP_lt_succ]

theorem starts_succ_le_length (cells : Nat) (bound : c < cells) :
    starts keys cells c + keys.count c ≤ keys.length := by
  rw [← starts_succ keys bound, starts_eq_countP keys bound]
  exact countP_le_length

/-- The entries put so far fill each cell from its start on, in order. -/
structure Filled (keys : List Nat) (cells : Nat) (entries : List (Nat × α)) (state : (Nat → Nat) × (Nat → α)) :
    Prop where
  cursor : ∀ c, state.1 c = starts keys cells c + (entries.map Prod.fst).count c
  placed : ∀ c < cells, (List.range' (starts keys cells c) ((entries.map Prod.fst).count c)).map state.2 =
    (entries.filter fun entry => entry.1 = c).map Prod.snd

theorem Filled.put {all front rest : List (Nat × α)} {entry : Nat × α}
    {state : (Nat → Nat) × (Nat → α)} (whole : all = front ++ entry :: rest) (inside : entry.1 < cells)
    (filled : Filled (all.map Prod.fst) cells front state) :
    Filled (all.map Prod.fst) cells (front ++ [entry]) (put state entry) := by
  have count (c : Nat) : ((front ++ [entry]).map Prod.fst).count c ≤ (all.map Prod.fst).count c := by
    rw [whole]
    simp only [map_append, map_cons, count_append, count_cons, map_nil, count_nil]
    omega
  have grows (c : Nat) : ((front ++ [entry]).map Prod.fst).count c =
      (front.map Prod.fst).count c + if entry.1 = c then 1 else 0 := by
    simp [count_append, count_singleton]
  constructor
  · intro c
    rw [grows]
    by_cases same : c = entry.1
    · subst same
      simp [CountingSort.put, filled.cursor, Nat.add_assoc]
    · simp [CountingSort.put, update_of_ne same, filled.cursor, Ne.symm same]
  · intro c bound
    have kept : ∀ i ∈ range' (starts (all.map Prod.fst) cells c) ((front.map Prod.fst).count c),
        (CountingSort.put state entry).2 i = state.2 i := by
      intro i member
      rw [mem_range'_1] at member
      refine update_of_ne ?_ _ _
      rw [filled.cursor]
      have here := count entry.1
      have there := count c
      rw [grows, if_pos rfl] at here
      rw [grows] at there
      rcases Nat.lt_trichotomy c entry.1 with before | rfl | after
      · have order := starts_mono (all.map Prod.fst) (Nat.succ_le_of_lt before) inside.le
        rw [starts_succ _ bound] at order
        omega
      · omega
      · have order := starts_mono (all.map Prod.fst) (Nat.succ_le_of_lt after) bound.le
        rw [starts_succ _ inside] at order
        omega
    rw [grows, filter_append, map_append, ← filled.placed c bound, ← map_congr_left kept]
    by_cases same : entry.1 = c
    · subst same
      simp [range'_concat, CountingSort.put, filled.cursor]
    · simp [same]

variable {entries : List (Nat × α)}

section
variable {cells : Nat} (inside : ∀ entry ∈ entries, entry.1 < cells) (placed : Nat → α)
include inside placed

theorem place_front_filled {front rest : List (Nat × α)} (whole : entries = front ++ rest) :
    Filled (entries.map Prod.fst) cells front (place front (starts (entries.map Prod.fst) cells) placed) := by
  induction front using reverseRecOn generalizing rest with
  | nil => exact ⟨fun c => by simp [place], fun c _ => by simp⟩
  | append_singleton front entry ih =>
    rw [append_assoc, singleton_append] at whole
    rw [place_concat]
    exact (ih whole).put whole (inside entry (by rw [whole]; simp))

theorem place_filled :
    Filled (entries.map Prod.fst) cells entries (place entries (starts (entries.map Prod.fst) cells) placed) :=
  place_front_filled inside placed (append_nil entries).symm

/-- A cell of the sorted entries holds the entries with its key, in their order. -/
theorem place_cell (bound : c < cells) :
    let start := starts (entries.map Prod.fst) cells
    (range' (start c) (start (c + 1) - start c)).map (place entries start placed).2 =
      (entries.filter fun entry => entry.1 = c).map Prod.snd := by
  intro start
  have length : start (c + 1) - start c = (entries.map Prod.fst).count c := by
    simp only [start, starts_succ _ bound, Nat.add_sub_cancel_left]
  rw [length]
  exact (place_filled inside placed).placed c bound

end

end Rarpar.CountingSort

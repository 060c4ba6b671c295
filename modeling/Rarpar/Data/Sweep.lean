import Mathlib.Algebra.Order.Ring.Nat

namespace Rarpar
open List

/-- A stretch from `start` up to `stop`, claimed by an owner. -/
structure Span (ι : Type*) where
  start : Nat
  stop : Nat
  owner : ι

namespace Span
variable {ι κ : Type*}

/-- Two spans in order of their starts claim a common point. -/
def Meets (s t : Span ι) : Prop := t.start < s.stop

def map (f : ι → κ) (s : Span ι) : Span κ := ⟨s.start, s.stop, f s.owner⟩

/-- The owners found to meet another one, by a pass that carries the furthest end so far and its owner. -/
def sweep : Option (Nat × ι) → List (Span ι) → List ι
  | _, [] => []
  | none, s :: rest => sweep (some (s.stop, s.owner)) rest
  | some (stop, owner), s :: rest =>
    if s.start < stop then
      owner :: s.owner :: sweep (if stop < s.stop then some (s.stop, s.owner) else some (stop, owner)) rest
    else sweep (some (s.stop, s.owner)) rest

variable {spans : List (Span ι)} {stop : Nat} {owner : ι} {s : Span ι}

theorem sweep_tail_subset (covered : Option (Nat × ι)) (first : Span ι) (rest : List (Span ι)) :
    ∃ covered', sweep covered' rest ⊆ sweep covered (first :: rest) ∧
      ∃ stop owner, covered' = some (stop, owner) ∧ first.stop ≤ stop ∧
        (owner = first.owner ∨ first.owner ∈ sweep covered (first :: rest)) := by
  cases covered with
  | none => exact ⟨_, fun _ member => member, _, _, rfl, le_rfl, .inl rfl⟩
  | some furthest =>
    obtain ⟨stop, owner⟩ := furthest
    rw [sweep]
    by_cases below : first.start < stop
    · rw [if_pos below]
      refine ⟨_, fun _ member => mem_cons_of_mem _ (mem_cons_of_mem _ member), ?_⟩
      by_cases further : stop < first.stop
      · exact ⟨first.stop, first.owner, if_pos further, le_rfl, .inl rfl⟩
      · exact ⟨stop, owner, if_neg further, by omega, .inr (mem_cons_of_mem _ mem_cons_self)⟩
    · rw [if_neg below]
      exact ⟨_, fun _ member => member, _, _, rfl, le_rfl, .inl rfl⟩

section
variable (sorted : spans.Pairwise fun s t => s.start ≤ t.start)
include sorted

/-- A span that starts before the furthest end is found. -/
theorem mem_sweep_of_start_lt (member : s ∈ spans)
    (below : s.start < stop) : s.owner ∈ sweep (some (stop, owner)) spans := by
  induction spans generalizing stop owner with
  | nil => cases member
  | cons first rest ih =>
    obtain ⟨before, sorted⟩ := pairwise_cons.mp sorted
    rcases mem_cons.mp member with rfl | later
    · rw [sweep, if_pos below]
      exact mem_cons_of_mem _ mem_cons_self
    · have order := before s later
      rw [sweep, if_pos (by omega)]
      refine mem_cons_of_mem _ (mem_cons_of_mem _ ?_)
      split
      · exact ih sorted later (by omega)
      · exact ih sorted later below

/-- The owner of the furthest end is found when a span starts before it. -/
theorem owner_mem_sweep (member : s ∈ spans)
    (below : s.start < stop) : owner ∈ sweep (some (stop, owner)) spans := by
  cases spans with
  | nil => cases member
  | cons first rest =>
    have order : first.start ≤ s.start := by
      rcases mem_cons.mp member with rfl | later
      · exact le_rfl
      · exact (pairwise_cons.mp sorted).1 s later
    rw [sweep, if_pos (by omega)]
    exact mem_cons_self

/-- Both owners of two spans that meet are found. -/
theorem sweep_complete (covered : Option (Nat × ι)) :
    spans.Pairwise fun s t => s.Meets t → s.owner ∈ sweep covered spans ∧ t.owner ∈ sweep covered spans := by
  induction spans generalizing covered with
  | nil => exact List.Pairwise.nil
  | cons first rest ih =>
    obtain ⟨_, sorted⟩ := pairwise_cons.mp sorted
    obtain ⟨_, sub, stop, owner, rfl, reach, own⟩ := sweep_tail_subset covered first rest
    refine pairwise_cons.mpr ⟨fun t later meets => ?_, (ih sorted (some (stop, owner))).imp ?_⟩
    · have below : t.start < stop := Nat.lt_of_lt_of_le meets reach
      refine ⟨?_, sub (mem_sweep_of_start_lt sorted later below)⟩
      rcases own with rfl | marked
      · exact sub (owner_mem_sweep sorted later below)
      · exact marked
    · intro s t found meets
      exact ⟨sub (found meets).1, sub (found meets).2⟩

end

theorem sweep_map (f : ι → κ) (covered : Option (Nat × ι)) (spans : List (Span ι)) :
    sweep (covered.map fun c => (c.1, f c.2)) (spans.map (map f)) = (sweep covered spans).map f := by
  induction spans generalizing covered with
  | nil => rfl
  | cons first rest ih =>
    cases covered with
    | none => exact ih (some (first.stop, first.owner))
    | some furthest =>
      simp only [Option.map_some, map_cons, sweep, map]
      split_ifs
      all_goals
        simp only [map_cons, ← ih]
        rfl

end Span
end Rarpar

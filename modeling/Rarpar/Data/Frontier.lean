import Rarpar.Data.OrderedMap
import Rarpar.Data.Ranges

namespace Rarpar
open List Nat

/-! A string put back together from pieces in any order: the front that is complete, and the pieces behind its end. -/

structure Frontier (α : Type) where
  next : Nat
  taken : List α
  pending : OrderedMap (List α)

namespace Frontier
variable {α : Type} {data taken piece : List α} {front : Frontier α} {next start p : Nat} {pending : OrderedMap (List α)}

def new : Frontier α := ⟨0, [], []⟩

/-- Whether a piece meets a pending one. -/
def overlaps (front : Frontier α) (start : Nat) (piece : List α) : Bool :=
  front.pending.any fun entry => start < entry.1 + entry.2.length && entry.1 < start + piece.length

/-- Keep a piece behind the front. -/
def hold (front : Frontier α) (start : Nat) (piece : List α) : Frontier α :=
  { front with pending := front.pending.insert start piece }

/-- How much of a piece the front has already. -/
def skip (next start : Nat) (piece : List α) : Nat := min (next - start) piece.length

/-- Take the pending pieces that reach the front, in their order. -/
def drain (next : Nat) (taken : List α) : OrderedMap (List α) → Frontier α
  | [] => ⟨next, taken, []⟩
  | entry :: rest =>
    if next < entry.1 then ⟨next, taken, entry :: rest⟩
    else
      let known := skip next entry.1 entry.2
      drain (next + (entry.2.length - known)) (taken ++ entry.2.drop known) rest

/-- Take a piece that reaches the front, and then the pending ones that do. -/
def advance (front : Frontier α) (start : Nat) (piece : List α) : Frontier α :=
  let known := skip front.next start piece
  drain (front.next + (piece.length - known)) (front.taken ++ piece.drop known) front.pending

/-- A piece of the string at its place. -/
structure Part (data : List α) (start : Nat) (piece : List α) : Prop where
  inside : start + piece.length ≤ data.length
  same : piece = Ranges.slice start (start + piece.length) data

/-- The front and the pending pieces are of the string, and no piece reaches the front. -/
structure Of (data : List α) (front : Frontier α) : Prop where
  inside : front.next ≤ data.length
  taken : front.taken = data.take front.next
  sorted : front.pending.Sorted
  parts : ∀ entry ∈ front.pending, entry.2 ≠ [] ∧ Part data entry.1 entry.2
  behind : ∀ entry ∈ front.pending, front.next < entry.1

/-- The place is in the front or in a pending piece. -/
def Holds (front : Frontier α) (p : Nat) : Prop :=
  p < front.next ∨ ∃ entry ∈ front.pending, entry.1 ≤ p ∧ p < entry.1 + entry.2.length

theorem of_new (data : List α) : Of data new := ⟨zero_le _, rfl, .nil, nofun, nofun⟩

/-- The front with a piece that reaches it. -/
theorem Part.extend (part : Part data start piece) (reaches : start ≤ next) :
    data.take next ++ piece.drop (skip next start piece) = data.take (next + (piece.length - skip next start piece)) ∧
      next + (piece.length - skip next start piece) = max next (start + piece.length) := by
  unfold skip
  rcases le_total _ piece.length with short | long
  · rw [min_eq_left short]
    refine ⟨?_, by omega⟩
    have drop : piece.drop (next - start) = (data.drop next).take (piece.length - (next - start)) := by
      have whole : piece = (data.drop start).take piece.length := by
        have same := part.same
        rwa [Ranges.slice, Nat.add_sub_cancel_left] at same
      rw [whole, drop_take, drop_drop, ← whole, Nat.add_sub_cancel' reaches]
    rw [drop, ← take_add]
  · rw [Nat.min_eq_right long, Nat.sub_self, drop_length, append_nil]
    exact ⟨rfl, by omega⟩

theorem of_drain (inside : next ≤ data.length) (sorted : pending.Sorted)
    (parts : ∀ entry ∈ pending, entry.2 ≠ [] ∧ Part data entry.1 entry.2) : Of data (drain next (data.take next) pending) ∧
      ∀ p, Holds (drain next (data.take next) pending) p ↔ Holds ⟨next, data.take next, pending⟩ p := by
  induction pending generalizing next with
  | nil => exact ⟨⟨inside, rfl, .nil, nofun, nofun⟩, fun _ => .rfl⟩
  | cons entry rest ih =>
    rw [drain]
    split_ifs with behind
    · refine ⟨⟨inside, rfl, sorted, parts, fun other member => ?_⟩, fun _ => .rfl⟩
      rcases mem_cons.mp member with rfl | later
      · exact behind
      · exact behind.trans ((pairwise_cons.mp sorted).1 other later)
    · obtain ⟨nonempty, part⟩ := parts entry mem_cons_self
      obtain ⟨joined, reach⟩ := part.extend (not_lt.mp behind)
      dsimp only
      rw [joined, reach]
      obtain ⟨good, holds⟩ := ih (Nat.max_le.mpr ⟨inside, part.inside⟩) (pairwise_cons.mp sorted).2
        fun other member => parts other (mem_cons_of_mem entry member)
      refine ⟨good, fun p => (holds p).trans ?_⟩
      have grown : p < max next (entry.1 + entry.2.length) ↔ p < next ∨ entry.1 ≤ p ∧ p < entry.1 + entry.2.length := by omega
      simp only [Holds, grown, mem_cons, exists_eq_or_imp, or_assoc]

section
variable (good : Of data front)
include good

/-- A piece that reaches the front is taken whole. -/
theorem Of.advance (part : Part data start piece) (reaches : start ≤ front.next) :
    Of data (front.advance start piece) ∧
      ∀ p, Holds (front.advance start piece) p ↔ Holds front p ∨ start ≤ p ∧ p < start + piece.length := by
  obtain ⟨joined, reach⟩ := part.extend reaches
  rw [Frontier.advance, good.taken, joined, reach]
  obtain ⟨of, holds⟩ := of_drain (Nat.max_le.mpr ⟨good.inside, part.inside⟩) good.sorted good.parts
  refine ⟨of, fun p => (holds p).trans ?_⟩
  have grown : p < max front.next (start + piece.length) ↔ p < front.next ∨ start ≤ p ∧ p < start + piece.length := by omega
  simp only [Holds, grown]
  exact or_right_comm

/-- A piece that meets no pending one is kept beside them. -/
theorem Of.hold (part : Part data start piece) (nonempty : piece ≠ []) (behind : front.next < start)
    (apart : front.overlaps start piece = false) : Of data (front.hold start piece) ∧
      ∀ p, Holds (front.hold start piece) p ↔ Holds front p ∨ start ≤ p ∧ p < start + piece.length := by
  have fresh : OrderedMap.Fresh start front.pending := by
    rintro entry member rfl
    have other := (good.parts entry member).1
    have meets : front.overlaps entry.1 piece = true := by
      refine any_eq_true.mpr ⟨entry, member, ?_⟩
      have long := length_pos_iff.mpr other
      have long' := length_pos_iff.mpr nonempty
      simp only [Bool.and_eq_true, decide_eq_true_eq]
      omega
    rw [apart] at meets
    cases meets
  have mem {entry : Nat × List α} : entry ∈ front.pending.insert start piece ↔ entry = (start, piece) ∨ entry ∈ front.pending :=
    OrderedMap.mem_insert good.sorted fresh
  refine ⟨⟨good.inside, good.taken, OrderedMap.insert_sorted good.sorted fresh, fun entry member => ?_, fun entry member => ?_⟩, fun p => ?_⟩
  · rcases mem.mp member with rfl | old
    · exact ⟨nonempty, part⟩
    · exact good.parts entry old
  · rcases mem.mp member with rfl | old
    · exact behind
    · exact good.behind entry old
  · simp only [Holds, Frontier.hold, mem, or_and_right, exists_or, exists_eq_left]
    rw [or_assoc, or_comm (a := start ≤ p ∧ p < start + piece.length)]

/-- An empty piece at the front changes nothing. -/
theorem Of.advance_nil (start : Nat) : front.advance start [] = front := by
  have known : skip front.next start ([] : List α) = 0 := min_zero _
  have still : drain front.next front.taken front.pending = front := by
    cases pending : front.pending with
    | nil => rw [drain, ← pending]
    | cons entry rest =>
      rw [drain, if_pos (good.behind entry (pending ▸ mem_cons_self)), ← pending]
  rw [Frontier.advance, known]
  simpa using still

/-- A piece of places that are not held meets no pending one. -/
theorem Of.overlaps_eq_false (nonempty : piece ≠ [])
    (new : ∀ p, start ≤ p → p < start + piece.length → ¬ Holds front p) : front.overlaps start piece = false := by
  rw [overlaps, any_eq_false]
  intro entry member meets
  simp only [Bool.and_eq_true, decide_eq_true_eq] at meets
  have long := length_pos_iff.mpr (good.parts entry member).1
  have long' := length_pos_iff.mpr nonempty
  rcases le_total start entry.1 with first | second
  · exact new entry.1 first meets.2 (.inr ⟨entry, member, le_refl _, by omega⟩)
  · exact new start (le_refl _) (by omega) (.inr ⟨entry, member, second, meets.1⟩)

/-- If all places up to a bound are held, the front has reached it. -/
theorem Of.next_of_holds {stop : Nat} (all : ∀ p < stop, Holds front p) : stop ≤ front.next := by
  by_contra short
  rcases all front.next (not_le.mp short) with early | ⟨entry, member, before, _⟩
  · exact absurd early (lt_irrefl _)
  · exact absurd before (not_le.mpr (good.behind entry member))

end

end Frontier
end Rarpar

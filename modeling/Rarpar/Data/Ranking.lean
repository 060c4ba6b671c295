import Mathlib.Data.List.Induction

namespace Rarpar.Ranking
open List Function
variable {κ : Type*}

/-- Collects the items whose code the table still marks absent. -/
def collect (absent : Nat) (code : κ → Nat) (items : List κ) : (Nat → Nat) × List κ :=
  items.foldl (fun state item =>
    if state.1 (code item) = absent then (Function.update state.1 (code item) 0, state.2 ++ [item]) else state)
    (fun _ => absent, [])

/-- Records the position of each item under its code. -/
def assign (code : κ → Nat) (ranked : List κ) (table : Nat → Nat) : Nat → Nat :=
  ranked.zipIdx.foldl (fun table entry => Function.update table (code entry.1) entry.2) table

/-- The distinct items in order, and the table of their positions. -/
def rank (absent : Nat) (code : κ → Nat) (le : κ → κ → Bool) (items : List κ) : (Nat → Nat) × List κ :=
  let found := collect absent code items
  let ranked := found.2.mergeSort le
  (assign code ranked found.1, ranked)

variable {absent : Nat} {code : κ → Nat} {items : List κ}

theorem collect_spec (marked : absent ≠ 0) (distinct : ∀ a ∈ items, ∀ b ∈ items, code a = code b → a = b) :
    (∀ item ∈ (collect absent code items).2, item ∈ items) ∧ ∀ item ∈ items, item ∈ (collect absent code items).2 := by
  -- a code is marked when an item of it was collected, and the code of every item is
  have run : (∀ item ∈ (collect absent code items).2, item ∈ items) ∧
      (∀ c, (collect absent code items).1 c ≠ absent → ∃ item ∈ (collect absent code items).2, code item = c) ∧
        ∀ item ∈ items, (collect absent code items).1 (code item) ≠ absent := by
    clear distinct
    induction items using reverseRecOn with
    | nil => simp [collect]
    | append_singleton front item ih =>
      obtain ⟨sound, complete, seen⟩ := ih
      have step : collect absent code (front ++ [item]) = if (collect absent code front).1 (code item) = absent
          then (update (collect absent code front).1 (code item) 0, (collect absent code front).2 ++ [item])
          else collect absent code front := by
        rw [collect, foldl_append]
        rfl
      rw [step]
      split <;> grind [update_apply]
  obtain ⟨sound, complete, seen⟩ := run
  refine ⟨sound, fun item member => ?_⟩
  obtain ⟨kept, listed, same⟩ := complete _ (seen item member)
  rwa [← distinct kept (sound kept listed) item member same]

theorem assign_get {ranked : List κ} (distinct : ∀ a ∈ ranked, ∀ b ∈ ranked, code a = code b → a = b)
    (table : Nat → Nat) {item : κ} (member : item ∈ ranked) :
    ranked[assign code ranked table (code item)]? = some item := by
  induction ranked using reverseRecOn with
  | nil => exact absurd member not_mem_nil
  | append_singleton front last ih =>
    have step : assign code (front ++ [last]) table =
        update (assign code front table) (code last) front.length := by
      rw [assign, zipIdx_append, foldl_append]
      simp [assign]
    rw [step]
    by_cases same : code item = code last
    · have equal := distinct item member last (mem_append_right _ mem_cons_self) same
      rw [same, update_self, getElem?_concat_length, equal]
    · rw [update_of_ne same]
      rcases mem_append.mp member with old | new
      · have found := ih (fun a ha b hb => distinct a (mem_append_left _ ha) b (mem_append_left _ hb)) old
        rw [List.getElem?_append_left (List.getElem?_eq_some_iff.mp found).1, found]
      · exact absurd (congrArg code (mem_singleton.mp new)) same

/-- Every item is found at the position that the table gives its code. -/
theorem rank_spec (marked : absent ≠ 0) (distinct : ∀ a ∈ items, ∀ b ∈ items, code a = code b → a = b)
    (le : κ → κ → Bool) :
    (∀ item ∈ (rank absent code le items).2, item ∈ items) ∧
      ∀ item ∈ items, (rank absent code le items).2[(rank absent code le items).1 (code item)]? = some item := by
  obtain ⟨sound, complete⟩ := collect_spec marked distinct
  have listed : ∀ item ∈ (rank absent code le items).2, item ∈ items := fun item member =>
    sound item (mem_mergeSort.mp member)
  refine ⟨listed, fun item member => ?_⟩
  refine assign_get (fun a ha b hb => distinct a (listed a ha) b (listed b hb)) _ ?_
  exact mem_mergeSort.mpr (complete item member)

end Rarpar.Ranking

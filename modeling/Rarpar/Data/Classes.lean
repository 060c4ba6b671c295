import Mathlib.Data.List.Perm.Basic

namespace Rarpar
open List

/-- A list is made up of its classes under a function. -/
theorem perm_flatMap_classes {α β : Type*} [DecidableEq β] (kind : α → β) {classes : List β} (distinct : classes.Nodup) {items : List α}
    (covered : ∀ item ∈ items, kind item ∈ classes) :
    items.Perm (classes.flatMap fun c => items.filter fun item => kind item = c) := by
  induction classes generalizing items with
  | nil =>
    obtain rfl : items = [] := eq_nil_iff_forall_not_mem.mpr fun item member => not_mem_nil (covered item member)
    rfl
  | cons c rest ih =>
    obtain ⟨fresh, distinct⟩ := nodup_cons.mp distinct
    refine (filter_append_perm (kind · = c) items).symm.trans (Perm.append_left _ ((ih distinct ?_).trans (Perm.of_eq ?_)))
    · intro item member
      obtain ⟨inside, other⟩ := mem_filter.mp member
      exact (mem_cons.mp (covered item inside)).resolve_left (by simpa using other)
    · refine flatMap_congr fun c' member => ?_
      rw [filter_filter]
      refine filter_congr fun item _ => ?_
      grind

end Rarpar

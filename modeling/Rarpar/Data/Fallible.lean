import Mathlib.Data.List.FinRange

namespace Rarpar
open List

/-! Loops of fallible steps. -/

universe u

/-- A loop whose steps all succeed. -/
theorem mapM_ok {α β ε : Type u} {f : α → Except ε β} {g : α → β} {items : List α}
    (succeeds : ∀ a ∈ items, f a = .ok (g a)) : items.mapM f = .ok (items.map g) := by
  induction items with
  | nil => rfl
  | cons a rest ih =>
    rw [mapM_cons, succeeds a mem_cons_self, ih fun b member => succeeds b (mem_cons_of_mem a member)]
    rfl

theorem mapM_ofFn {α β ε : Type} {n : Nat} {f : α → Except ε β} {a : Fin n → α} {b : Fin n → β}
    (succeeds : ∀ i, f (a i) = .ok (b i)) : (ofFn a).mapM f = .ok (ofFn b) := by
  rw [ofFn_eq_map, ofFn_eq_map, mapM_map]
  exact mapM_ok fun i _ => succeeds i

/-- A loop that succeeds keeps what each step keeps. -/
theorem foldlM_invariant {σ α β ε : Type*} {step : σ → α → Except ε σ} {f : β → α → β} (Keeps : β → σ → Prop)
    (steps : ∀ b s a s', Keeps b s → step s a = .ok s' → Keeps (f b a) s') {items : List α} {b : β} {s s' : σ}
    (holds : Keeps b s) (ran : items.foldlM step s = .ok s') : Keeps (items.foldl f b) s' := by
  induction items generalizing s b with
  | nil => exact Except.ok.inj ran ▸ holds
  | cons a rest ih =>
    rw [foldlM_cons] at ran
    cases stepped : step s a with
    | error e =>
      rw [stepped] at ran
      cases ran
    | ok next =>
      rw [stepped] at ran
      exact ih (steps b s a next holds stepped) ran

/-- A loop fails where its first failing step stands. -/
theorem foldlM_eq_error_iff {σ α ε : Type*} {step : σ → α → Except ε σ} {items : List α} {s : σ} {e : ε} :
    items.foldlM step s = .error e ↔
      ∃ i s', (items.take i).foldlM step s = .ok s' ∧ ∃ a, items[i]? = some a ∧ step s' a = .error e := by
  induction items generalizing s with
  | nil => simp [pure, Except.pure]
  | cons a rest ih =>
    rw [foldlM_cons, ← Nat.or_exists_add_one]
    cases stepped : step s a with
    | error e' => simp [stepped, bind, Except.bind, pure, Except.pure]
    | ok next =>
      simp only [take_succ_cons, foldlM_cons, stepped, getElem?_cons_succ]
      refine (ih (s := next)).trans (or_iff_right ?_).symm
      rintro ⟨s', ran, b, present, failed⟩
      simp_all [pure, Except.pure]

end Rarpar

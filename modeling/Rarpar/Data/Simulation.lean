import Mathlib.Init

namespace Rarpar.Simulation
variable {ε σ τ α β : Type}

/-- Two results that agree: the same value or a failure on both sides, in related states. -/
inductive Agree (R : σ → τ → Prop) : EStateM.Result ε σ α → EStateM.Result ε τ α → Prop
  | ok {value : α} {s : σ} {t : τ} (related : R s t) : Agree R (.ok value s) (.ok value t)
  | error {left right : ε} {s : σ} {t : τ} (related : R s t) : Agree R (.error left s) (.error right t)

/-- From related states the two programs return the same value or both fail, and end in related
states. The errors themselves may differ. -/
def Simulates (R : σ → τ → Prop) (left : EStateM ε σ α) (right : EStateM ε τ α) : Prop :=
  ∀ s t, R s t → Agree R (left s) (right t)

variable {R : σ → τ → Prop} {right : EStateM ε τ α} {left : EStateM ε σ α}

theorem Simulates.pure (value : α) :
    Simulates R (Pure.pure value : EStateM ε σ α) (Pure.pure value : EStateM ε τ α) :=
  fun _ _ related => .ok related

theorem Simulates.bind {next : α → EStateM ε σ β}
    {after : α → EStateM ε τ β} (first : Simulates R left right)
    (rest : ∀ value, Simulates R (next value) (after value)) : Simulates R (left >>= next) (right >>= after) := by
  intro s t related
  show Agree R (EStateM.bind left next s) (EStateM.bind right after t)
  unfold EStateM.bind
  have agree := first s t related
  generalize left s = before at agree
  generalize right t = behind at agree
  cases agree with
  | ok still => exact rest _ _ _ still
  | error still => exact .error still

theorem Simulates.map (program : Simulates R left right) (f : α → β) :
    Simulates R (f <$> left) (f <$> right) := by
  rw [map_eq_pure_bind, map_eq_pure_bind]
  exact program.bind fun value => Simulates.pure (f value)

theorem Simulates.ite {p : Prop} [Decidable p] {left' : EStateM ε σ α} {right' : EStateM ε τ α}
    (yes : p → Simulates R left right) (no : ¬ p → Simulates R left' right') :
    Simulates R (if p then left else left') (if p then right else right') := by
  by_cases holds : p
  · simpa only [if_pos holds] using yes holds
  · simpa only [if_neg holds] using no holds

end Rarpar.Simulation

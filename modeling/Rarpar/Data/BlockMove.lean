import Mathlib.Order.Nat

namespace Rarpar.BlockMove
variable {V : Type*} {buf : Nat → V} {src dst : Nat}

/-- Loads `width` cells at `src`, then stores them at `dst`. -/
def move (src dst width : Nat) (buf : Nat → V) : Nat → V := fun k =>
  if dst ≤ k ∧ k < dst + width then buf (src + (k - dst)) else buf k

/-- Copies cell by cell in increasing order; a copy onto later cells repeats what it has written. -/
def forward (src dst : Nat) : Nat → (Nat → V) → Nat → V
  | 0, buf => buf
  | n + 1, buf => Function.update (forward src dst n buf) (dst + n) (forward src dst n buf (src + n))

theorem forward_of_outside {n k : Nat} (outside : k < dst ∨ dst + n ≤ k) : forward src dst n buf k = buf k := by
  induction n with
  | zero => rfl
  | succ n ih =>
    have other : k ≠ dst + n := by omega
    exact (Function.update_of_ne other _ _).trans (ih (by omega))

/-- Each cell is written once, with what the copy reads at that time. -/
theorem forward_at {n i : Nat} (below : i < n) : forward src dst n buf (dst + i) = forward src dst i buf (src + i) := by
  induction n with
  | zero => omega
  | succ n ih =>
    by_cases last : i = n
    · subst last
      exact Function.update_self _ _ _
    · have other : dst + i ≠ dst + n := by omega
      exact (Function.update_of_ne other _ _).trans (ih (by omega))

/-- A cell looks the same at two times unless it was written between them. -/
theorem forward_same {m n k : Nat}
    (same : k < dst ∨ (m ≤ k - dst ∧ n ≤ k - dst) ∨ (dst ≤ k ∧ k - dst < m ∧ k - dst < n)) :
    forward src dst m buf k = forward src dst n buf k := by
  by_cases inside : dst ≤ k ∧ k - dst < m ∧ k - dst < n
  · have place : k = dst + (k - dst) := by omega
    rw [place, forward_at inside.2.1, forward_at inside.2.2]
  · rw [forward_of_outside (by omega), forward_of_outside (by omega)]

theorem forward_self (n : Nat) : forward src src n buf = buf := by
  induction n with
  | zero => rfl
  | succ n ih => rw [forward, ih, Function.update_eq_self]

theorem move_self (src width : Nat) (buf : Nat → V) : move src src width buf = buf := by
  funext k
  unfold move
  split
  · congr 1
    omega
  · rfl

/-- A block move continues a copy of which `n` cells are done: it may store some of them again, and
must not load a cell that the copy would have changed in between. -/
theorem move_forward {n offset width : Nat} (start : offset ≤ n) (behind : src < dst → offset + width ≤ n + (dst - src))
    (ahead : dst < src → n ≤ offset + (src - dst)) :
    move (src + offset) (dst + offset) width (forward src dst n buf) = forward src dst (max n (offset + width)) buf := by
  by_cases same : src = dst
  · rw [same, move_self, forward_self, forward_self]
  · funext k
    unfold move
    split_ifs with inside
    · obtain ⟨j, rfl⟩ : ∃ j, k = dst + j := ⟨k - dst, by omega⟩
      rw [forward_at (show j < max n _ by omega),
        show src + offset + (dst + j - (dst + offset)) = src + j by omega]
      exact forward_same (by omega)
    · exact forward_same (by omega)

/-- One block move is a copy unless it would have to load what it stores. -/
theorem move_eq_forward {width : Nat} (behind : src < dst → width ≤ dst - src) :
    move src dst width buf = forward src dst width buf := by
  have moved : move (src + 0) (dst + 0) width _ = forward src dst _ buf :=
    move_forward le_rfl (by omega) (fun _ => Nat.zero_le _)
  simpa only [Nat.add_zero, Nat.zero_add, Nat.zero_max, forward] using moved

/-- A copy onto later cells has the distance as its period. -/
theorem forward_period (less : src < dst) (i rounds : Nat) :
    forward src dst (i + rounds * (dst - src)) buf (src + (i + rounds * (dst - src))) =
      forward src dst i buf (src + i) := by
  induction rounds with
  | zero => simp
  | succ rounds ih =>
    have split : i + (rounds + 1) * (dst - src) = i + rounds * (dst - src) + (dst - src) := by
      rw [Nat.succ_mul, Nat.add_assoc]
    have place : src + (i + rounds * (dst - src) + (dst - src)) = dst + (i + rounds * (dst - src)) := by omega
    rw [split, place, forward_at (by omega), ih]

/-- Doubling: the done part, a whole number of periods, may be moved behind itself. -/
theorem move_double (less : src < dst) {rounds chunk : Nat} (fits : chunk ≤ rounds * (dst - src)) :
    move dst (dst + rounds * (dst - src)) chunk (forward src dst (rounds * (dst - src)) buf) =
      forward src dst (rounds * (dst - src) + chunk) buf := by
  funext k
  unfold move
  split_ifs with inside
  · obtain ⟨j, rfl⟩ : ∃ j, k = dst + (j + rounds * (dst - src)) := ⟨k - dst - rounds * (dst - src), by omega⟩
    rw [forward_at (show j + rounds * (dst - src) < rounds * (dst - src) + chunk by omega), forward_period less,
      show dst + (dst + (j + rounds * (dst - src)) - (dst + rounds * (dst - src))) = dst + j by omega,
      forward_at (by omega)]
  · exact forward_same (by omega)

end Rarpar.BlockMove

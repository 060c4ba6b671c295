import Mathlib.Data.List.GetD
import Rarpar.Data.BlockMove

namespace Rarpar.RingBuffer
open List Nat Function
variable {V : Type*}

/-- Stores values at consecutive cells. -/
def store (start : Nat) : List V → (Nat → V) → Nat → V
  | [], buf => buf
  | v :: rest, buf => store (start + 1) rest (Function.update buf start v)

/-- A ring of `size` cells that holds the last `size` values of a history, each at its index modulo
the size. -/
def Holds (size : Nat) (buf : Nat → V) (history : List V) : Prop :=
  ∀ i v, history[i]? = some v → history.length ≤ i + size → buf (i % size) = v

variable {size : Nat} {buf : Nat → V} {history : List V}

theorem holds_nil (size : Nat) (buf : Nat → V) : Holds size buf [] := by
  intro i v present
  simp at present

/-- Appending a value overwrites the cell of the value that leaves the ring. -/
theorem Holds.push (holds : Holds size buf history) (v : V) :
    Holds size (update buf (history.length % size) v) (history ++ [v]) := by
  intro i w present recent
  have bound := (List.getElem?_eq_some_iff.mp present).choose
  rw [List.length_append, List.length_singleton] at bound recent
  by_cases last : i = history.length
  · subst last
    rw [update_self]
    simpa using present
  · have inside : i < history.length := by omega
    have other : i % size ≠ history.length % size := by
      intro equal
      have gap := sub_mod_eq_zero_of_mod_eq equal.symm
      have small : history.length - i < size := by omega
      rw [mod_eq_of_lt small] at gap
      omega
    rw [update_of_ne other]
    rw [List.getElem?_append_left inside] at present
    exact holds i w present (by omega)

/-- The value `distance` back. -/
theorem Holds.read [Inhabited V] (holds : Holds size buf history) {distance : Nat} (positive : 0 < distance)
    (near : distance ≤ size) (inside : distance ≤ history.length) :
    buf ((history.length - distance) % size) = history.getD (history.length - distance) default := by
  have bound : history.length - distance < history.length := by omega
  rw [getD_eq_getElem _ _ bound]
  exact holds _ _ (getElem?_eq_getElem bound) (by omega)

theorem add_mod_of_lt {n k : Nat} (room : n % size + k < size) : (n + k) % size = n % size + k := by
  rw [← mod_add_mod, mod_eq_of_lt room]

theorem add_mod_of_eq {n k : Nat} (full : n % size + k = size) : (n + k) % size = 0 := by
  rw [← mod_add_mod, full, mod_self]

/-- The cell of the value `distance` back, found from the cursor without a division. -/
theorem sub_mod_eq_ite {n distance : Nat} (positive : 0 < distance) (near : distance ≤ size) (inside : distance ≤ n) :
    (n - distance) % size =
      if distance ≤ n % size then n % size - distance else size - (distance - n % size) := by
  have parts := div_add_mod n size
  have cursor := mod_lt n (show 0 < size by omega)
  split
  · have shifted : n - distance = size * (n / size) + (n % size - distance) := by omega
    rw [shifted, mul_add_mod, mod_eq_of_lt (by omega)]
  · cases rounds : n / size with
    | zero =>
      rw [rounds, Nat.mul_zero] at parts
      omega
    | succ q =>
      rw [rounds, mul_succ] at parts
      have shifted : n - distance = size * q + (size - (distance - n % size)) := by omega
      rw [shifted, mul_add_mod, mod_eq_of_lt (by omega)]

/-- A block that does not cross the end of the ring. -/
theorem Holds.store (holds : Holds size buf history) {values : List V}
    (fits : history.length % size + values.length ≤ size) :
    Holds size (store (history.length % size) values buf) (history ++ values) := by
  induction values generalizing buf history with
  | nil => simpa [RingBuffer.store] using holds
  | cons v rest ih =>
    have pushed := holds.push v
    cases rest with
    | nil => exact pushed
    | cons w rest =>
      simp only [length_cons] at fits
      have next : (history ++ [v]).length % size = history.length % size + 1 := by
        rw [length_append, length_singleton, add_mod_of_lt (by omega)]
      have more := ih pushed (by rw [next]; simp only [length_cons]; omega)
      rw [next, append_assoc, singleton_append] at more
      exact more

section Repeat
variable [Inhabited V] (distance n : Nat)

/-- Appends `n` values, each the one `distance` back. -/
def repeatBack (distance : Nat) : Nat → List V → List V
  | 0, history => history
  | n + 1, history => repeatBack distance n (history ++ [history.getD (history.length - distance) default])

theorem repeatBack_length (history : List V) :
    (repeatBack distance n history).length = history.length + n := by
  induction n generalizing history with
  | zero => rfl
  | succ n ih =>
    rw [repeatBack, ih, length_append, length_singleton]
    omega

theorem prefix_repeatBack (history : List V) : history <+: repeatBack distance n history := by
  induction n generalizing history with
  | zero => exact prefix_refl _
  | succ n ih => exact (prefix_append _ _).trans (ih _)

theorem repeatBack_succ (history : List V) :
    repeatBack distance (n + 1) history = repeatBack distance n history ++
      [(repeatBack distance n history).getD (history.length + n - distance) default] := by
  induction n generalizing history with
  | zero => rfl
  | succ n ih =>
    have later := ih (history ++ [history.getD (history.length - distance) default])
    rw [length_append, length_singleton, Nat.add_assoc, Nat.add_comm 1 n] at later
    exact later

/-- At distance one the last value is repeated. -/
theorem repeatBack_one (n : Nat) (nonempty : history ≠ []) :
    repeatBack 1 n history = history ++ replicate n (history.getD (history.length - 1) default) := by
  have positive := length_pos_iff.mpr nonempty
  induction n generalizing history with
  | zero => simp [repeatBack]
  | succ n ih =>
    have last : (history ++ [history.getD (history.length - 1) default]).getD
        ((history ++ [history.getD (history.length - 1) default]).length - 1) default =
          history.getD (history.length - 1) default := by
      simp [getD_eq_getElem?_getD]
    rw [repeatBack, ih (by simp) (by simp), last, append_assoc, replicate_succ, singleton_append]

/-- One step of a copy within the ring. -/
theorem Holds.step (holds : Holds size buf history) {distance : Nat} (positive : 0 < distance) (near : distance ≤ size)
    (inside : distance ≤ history.length) :
    Holds size (update buf (history.length % size) (buf ((history.length - distance) % size)))
      (history ++ [history.getD (history.length - distance) default]) := by
  rw [holds.read positive near inside]
  exact holds.push _

/-- A copy cell by cell of which neither side crosses the end of the ring. -/
theorem Holds.forward (holds : Holds size buf history) {distance n : Nat} (positive : 0 < distance)
    (near : distance ≤ size) (inside : distance ≤ history.length)
    (sourceFits : (history.length - distance) % size + n ≤ size) (fits : history.length % size + n ≤ size) :
    Holds size (BlockMove.forward ((history.length - distance) % size) (history.length % size) n buf)
      (repeatBack distance n history) := by
  induction n with
  | zero => exact holds
  | succ n ih =>
    have before := ih (by omega) (by omega)
    have length := repeatBack_length distance n history
    have source : (history.length + n - distance) % size = (history.length - distance) % size + n := by
      rw [show history.length + n - distance = history.length - distance + n by omega, add_mod_of_lt (by omega)]
    have next := before.step positive near (by omega)
    rw [length, source, add_mod_of_lt (show history.length % size + n < size by omega)] at next
    rw [repeatBack_succ]
    exact next

end Repeat

end Rarpar.RingBuffer

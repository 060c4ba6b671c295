import Rarpar.Data.Panic
import Rarpar.ReedSolomon.LogTables

namespace Rarpar
open GfSymbol Nat

/-- The 16-bit words of PAR2 and RAR5, reduced by `x^16 + x^12 + x^3 + x + 1`. -/
abbrev Word := GfSymbol 16 0x1100B

namespace Gf

/-- Order of the multiplicative group. -/
def order : Nat := 65535

/-- The static tables. The antilog entry past the last power repeats the first
one, which is the entry the inverse of one reads. -/
def tables : LogTables :=
  let filled := fillTables (doubled 16 0x1100B) order
  { filled with antilog := Function.update filled.antilog order (filled.antilog 0) }

def log (value : Word) : Nat := tables.log value.toNat

def mul (a b : Word) : Word :=
  if a = 0 ∨ b = 0 then 0
  else
    let logSum := log a + log b
    .ofNat (tables.antilog (if order ≤ logSum then logSum - order else logSum))

/-- The table entry that inverts a nonzero word. -/
def invEntry (a : Word) : Word := .ofNat (tables.antilog (order - log a))

def inv (a : Word) : Except Panic Word :=
  if a = 0 then .error .assertion else .ok (invEntry a)

/-- Inverts every cell of a matrix in place; one zero cell fails the whole loop. -/
def invCells {rows columns : Nat} (cell : Fin rows → Fin columns → Word) :
    Except Panic (Matrix (Fin rows) (Fin columns) Word) :=
  if ∃ r c, cell r c = 0 then .error .assertion else .ok fun r c => invEntry (cell r c)

def powFromLog (logBase exp : Nat) : Word := .ofNat (tables.antilog (logBase * exp % order))

def pow (base : Word) (exp : Nat) : Word :=
  if exp = 0 then 1 else if base = 0 then 0 else powFromLog (log base) exp

theorem power_order : (power order : Word) = 1 := Primitive.period (w := 16) (g := 0x1100B)

theorem power_add_order (i : Nat) : (power (i + order) : Word) = power i := by
  rw [← power_mul_power, power_order, mul_one]

theorem tables_antilog {i : Nat} (bound : i ≤ order) : tables.antilog i = (power i : Word).toNat := by
  have steps := doubled_toNat (w := 16) (g := 0x1100B) (by norm_num) (by decide)
  by_cases last : i = order
  · subst last
    rw [power_order]
    simp only [tables, Function.update_self]
    exact fillTables_antilog steps (by decide) (by decide)
  · simp only [tables, Function.update_of_ne last]
    exact fillTables_antilog steps (by decide) (by omega)

theorem log_power {i : Nat} (bound : i < order) : log (power i) = i :=
  fillTables_log (doubled_toNat (w := 16) (g := 0x1100B) (by norm_num) (by decide)) (by decide) bound

theorem exists_log {a : Word} (nonzero : a ≠ 0) : ∃ i < order, a = power i ∧ log a = i := by
  obtain ⟨i, bound, rfl⟩ := Primitive.reach a nonzero
  exact ⟨i, bound, rfl, log_power bound⟩

theorem powFromLog_eq (logBase exp : Nat) : powFromLog logBase exp = power logBase ^ exp := by
  have bound : logBase * exp % order < order := mod_lt _ (by decide)
  rw [powFromLog, tables_antilog bound.le, ofNat_toNat, power_pow]
  exact power_mod _

theorem pow_eq (base : Word) (exp : Nat) : pow base exp = base ^ exp := by
  unfold pow
  split
  · simp [*]
  · split
    · rename_i positive zero
      rw [zero, zero_pow positive]
    · rename_i _ nonzero
      obtain ⟨i, bound, rfl, logged⟩ := exists_log nonzero
      rw [logged, powFromLog_eq]

/-- The table product is the product of the field. -/
theorem mul_eq (a b : Word) : mul a b = a * b := by
  unfold mul
  split_ifs with zero
  · rcases zero with rfl | rfl <;> simp
  · obtain ⟨i, hi, rfl, li⟩ := exists_log (mt Or.inl zero)
    obtain ⟨j, hj, rfl, lj⟩ := exists_log (mt Or.inr zero)
    simp only [li, lj, power_mul_power]
    split_ifs with wraps
    · obtain ⟨rest, sum⟩ := Nat.exists_eq_add_of_le' wraps
      rw [sum, Nat.add_sub_cancel, tables_antilog (by omega), ofNat_toNat, power_add_order]
    · rw [tables_antilog (by omega), ofNat_toNat]

theorem invEntry_eq {a : Word} (nonzero : a ≠ 0) : invEntry a = a⁻¹ := by
  obtain ⟨i, bound, rfl, logged⟩ := exists_log nonzero
  rw [invEntry, logged, tables_antilog (sub_le _ _), ofNat_toNat]
  apply eq_inv_of_mul_eq_one_left
  rw [power_mul_power, Nat.sub_add_cancel bound.le, power_order]

theorem inv_eq {a : Word} (nonzero : a ≠ 0) : inv a = .ok a⁻¹ := by
  rw [inv, if_neg nonzero, invEntry_eq nonzero]

theorem invCells_eq {rows columns : Nat} {cell : Fin rows → Fin columns → Word}
    (nonzero : ∀ r c, cell r c ≠ 0) : invCells cell = .ok fun r c => (cell r c)⁻¹ := by
  rw [invCells, if_neg]
  · simp only [invEntry_eq (nonzero _ _)]
  · simpa only [not_exists] using nonzero

/-- The prime factors of the group order that a slice exponent must avoid. -/
def isDivisibleBySuborderFactor (exp : Nat) : Bool :=
  exp % 3 == 0 || exp % 5 == 0 || exp % 17 == 0 || exp % 257 == 0

/-- The collecting loop at exponent `order - left`, with `count` constants still
wanted. The assertion on the next exponent fails once `left` is spent. -/
def collectConstants : Nat → Nat → Except Panic (List Word)
  | _, 0 => .ok []
  | 0, _ + 1 => .error .assertion
  | left + 1, count + 1 =>
    let exp := order - (left + 1)
    if isDivisibleBySuborderFactor exp then collectConstants left (count + 1)
    else (collectConstants left count).map (.ofNat (tables.antilog exp) :: ·)

def inputSliceConstants (count : Nat) : Except Panic (List Word) := collectConstants (order - 1) count

theorem isDivisibleBySuborderFactor_eq_false_iff (exp : Nat) :
    isDivisibleBySuborderFactor exp = false ↔ order.Coprime exp := by
  have avoid (p : Nat) (prime : p.Prime) : p.Coprime exp ↔ exp % p ≠ 0 := by
    rw [prime.coprime_iff_not_dvd, dvd_iff_mod_eq_zero]
  have factors : order = 3 * 5 * 17 * 257 := rfl
  rw [factors, coprime_mul_iff_left, coprime_mul_iff_left, coprime_mul_iff_left,
    avoid 3 (by norm_num), avoid 5 (by norm_num), avoid 17 (by norm_num), avoid 257 (by norm_num)]
  simp [isDivisibleBySuborderFactor, and_assoc]

/-- The logarithms from `order - left` on that generate the whole group. -/
def sliceLogs (left : Nat) : List Nat :=
  (List.range' (order - left) left).filter (order.Coprime ·)

theorem sliceLogs_succ {left : Nat} (bound : left < order) :
    sliceLogs (left + 1) =
      if order.Coprime (order - (left + 1)) then (order - (left + 1)) :: sliceLogs left
      else sliceLogs left := by
  have next : order - (left + 1) + 1 = order - left := by omega
  rw [sliceLogs, List.range'_succ, next, List.filter_cons]
  simp only [decide_eq_true_eq, sliceLogs]

/-- The collecting loop returns the first generators it passes, and fails only
when fewer remain than are wanted. -/
theorem collectConstants_eq {left count : Nat} (bound : left < order) :
    collectConstants left count =
      if count ≤ (sliceLogs left).length then .ok (((sliceLogs left).take count).map power)
      else .error .assertion := by
  induction left generalizing count with
  | zero => cases count <;> simp [collectConstants, sliceLogs]
  | succ left ih =>
    cases count with
    | zero => simp [collectConstants]
    | succ count =>
      have entry := tables_antilog (sub_le order (left + 1))
      rw [collectConstants, ih (by omega), ih (by omega), sliceLogs_succ (by omega)]
      by_cases coprime : order.Coprime (order - (left + 1))
      · rw [(isDivisibleBySuborderFactor_eq_false_iff _).mpr coprime, if_pos coprime, entry]
        simp only [Bool.false_eq_true, if_false, ofNat_toNat, List.length_cons, succ_le_succ_iff]
        split <;> simp [Except.map]
      · rw [if_neg coprime, if_pos]
        rw [← Bool.not_eq_false, isDivisibleBySuborderFactor_eq_false_iff]
        exact coprime

theorem sliceLogs_length : (sliceLogs (order - 1)).length = 32768 := by
  have totient : totient order = 32768 := by
    have factors : order = 3 * 5 * 17 * 257 := rfl
    rw [factors, totient_mul (by decide), totient_mul (by decide), totient_mul (by decide),
      totient_prime (by norm_num), totient_prime (by norm_num), totient_prime (by norm_num),
      totient_prime (by norm_num)]
  have start : (List.range order).filter (order.Coprime ·) = sliceLogs (order - 1) := by
    have head : List.range order = 0 :: List.range' 1 (order - 1) := by
      rw [List.range_eq_range']
      rfl
    have first : order - (order - 1) = 1 := rfl
    rw [head, List.filter_cons_of_neg (by decide), sliceLogs, first]
  rw [← totient, ← start, totient_eq_card_coprime, Finset.card_def, Finset.filter_val, Finset.range_val,
    ← Multiset.coe_range, Multiset.filter_coe, Multiset.coe_card]

/-- Every slice count the format allows receives its constants. -/
theorem inputSliceConstants_eq {count : Nat} (bound : count ≤ 32768) :
    inputSliceConstants count = .ok (((sliceLogs (order - 1)).take count).map power) := by
  rw [inputSliceConstants, collectConstants_eq (by decide), if_pos]
  rwa [sliceLogs_length]

end Gf
end Rarpar

import Rarpar.Par3.Error
import Rarpar.ReedSolomon.LogTables

namespace Rarpar.Par3
open GfSymbol Nat List

/-- The loop of `build_tables` over the powers of two, with its two checks. -/
def fillChecked (generator width : Nat) : Nat → Except Par3Error LogTables
  | 0 => .ok (fillTables (doubled width generator) 0)
  | power + 1 =>
    match fillChecked generator width power with
    | .error e => .error e
    | .ok tables =>
      if 0 < power ∧ tables.val = 1 then
        .error (.unsupportedField
          s!"generator polynomial {hex generator} is not primitive: the powers of two return to one after {power} steps, not {2 ^ width - 1}")
      else if tables.val = 0 then
        .error (.unsupportedField
          s!"generator polynomial {hex generator} is not primitive: the powers of two reach zero after {power} steps")
      else .ok
        { antilog := Function.update tables.antilog power tables.val
          log := Function.update tables.log tables.val power
          val := doubled width generator tables.val }

/-- `build_tables`; the antilogarithms are written out twice. -/
def buildTables (generator width : Nat) : Except Par3Error LogTables :=
  let order := 1 <<< width
  let max := order - 1
  if generator >>> width ≠ 1 then
    .error (.unsupportedField
      s!"generator polynomial {hex generator} does not have degree {width}; it must lie between {hex order} and {hex (order * 2 - 1)}")
  else
    match fillChecked generator width max with
    | .error e => .error e
    | .ok tables =>
      if tables.val ≠ 1 then
        .error (.unsupportedField
          s!"generator polynomial {hex generator} is not primitive: two to the power {max} is {tables.val}, not one")
      else
        match (List.range' 1 max).find? fun v => tables.antilog (tables.log v) ≠ v with
        | some v => .error (.unsupportedField
            s!"generator polynomial {hex generator} is not primitive: the powers of two never reach {hex v}")
        | none => .ok { tables with antilog := fun i => tables.antilog (if i < max then i else i - max) }

section Tables
variable {g w : Nat}

theorem fillChecked_eq {n : Nat} {tables : LogTables} (filled : fillChecked g w n = .ok tables) :
    tables = fillTables (doubled w g) n := by
  induction n generalizing tables with
  | zero => exact (Except.ok.inj filled).symm
  | succ n ih =>
    rw [fillChecked] at filled
    split at filled
    · cases filled
    · rename_i before known
      obtain rfl := ih known
      split_ifs at filled
      · exact (Except.ok.inj filled).symm

/-- Every logarithm is the number of a power that was stored, or the zero the table starts with. -/
theorem log_le (n v : Nat) : (fillTables (doubled w g) n).log v ≤ n - 1 := by
  induction n with
  | zero => exact le_rfl
  | succ n ih =>
    simp only [fillTables, Function.update_apply]
    split <;> omega

/-- A generator that is accepted is primitive, and the tables hold its powers. -/
theorem buildTables_spec {tables : LogTables} (positive : 0 < w) (built : buildTables g w = .ok tables) :
    Primitive w g ∧ (∀ i < 2 * (2 ^ w - 1), tables.antilog i = (power i : GfSymbol w g).toNat) ∧
      ∀ i < 2 ^ w - 1, tables.log (power i : GfSymbol w g).toNat = i := by
  unfold buildTables at built
  dsimp only at built
  rw [Nat.one_shiftLeft] at built
  split at built
  · cases built
  rename_i degree
  split at built
  · cases built
  rename_i filled known
  obtain rfl := fillChecked_eq known
  have steps := doubled_toNat positive (not_not.mp degree)
  split at built
  · cases built
  rename_i closes
  split at built
  · cases built
  rename_i inverts
  obtain rfl := Except.ok.inj built
  rw [fillTables_val steps positive] at closes
  have period : (power (2 ^ w - 1) : GfSymbol w g) = 1 :=
    toNat_injective ((not_not.mp closes).trans (toNat_one positive).symm)
  have primitive : Primitive w g := by
    refine ⟨positive, period, fun a nonzero => ?_⟩
    have small := a.toNat_lt
    have some_ : a.toNat ≠ 0 := fun zero => nonzero (toNat_injective zero)
    have listed : a.toNat ∈ range' 1 (2 ^ w - 1) := by
      rw [mem_range'_1]
      omega
    have back : (fillTables (doubled w g) (2 ^ w - 1)).antilog ((fillTables (doubled w g) (2 ^ w - 1)).log a.toNat) =
        a.toNat := by simpa using find?_eq_none.mp inverts _ listed
    have inside : (fillTables (doubled w g) (2 ^ w - 1)).log a.toNat < 2 ^ w - 1 :=
      (log_le _ _).trans_lt (by omega)
    refine ⟨_, inside, ?_⟩
    rw [fillTables_antilog steps positive inside] at back
    exact toNat_injective back
  refine ⟨primitive, fun i below => ?_, fun i below => fillTables_log steps le_rfl below⟩
  dsimp only
  split_ifs with first
  · exact fillTables_antilog steps positive first
  · rw [fillTables_antilog steps positive (by omega)]
    have wraps : (power (i - (2 ^ w - 1) + (2 ^ w - 1)) : GfSymbol w g) = power (i - (2 ^ w - 1)) := by
      rw [← power_mul_power, period, mul_one]
    rw [← wraps, Nat.sub_add_cancel (Nat.le_of_not_lt first)]

/-- Every primitive generator of the right degree is accepted. -/
theorem exists_tables [primitive : Primitive w g] (degree : g >>> w = 1) : ∃ tables, buildTables g w = .ok tables := by
  have positive := primitive.positive
  have steps := doubled_toNat positive degree
  have filled {n : Nat} (small : n ≤ 2 ^ w - 1) : fillChecked g w n = .ok (fillTables (doubled w g) n) := by
    induction n with
    | zero => rfl
    | succ n ih =>
      have first : ¬(0 < n ∧ (fillTables (doubled w g) n).val = 1) := by
        rintro ⟨later, back⟩
        rw [fillTables_val steps positive, ← toNat_one positive] at back
        have same := power_injOn (w := w) (g := g) (i := n) (j := 0) (by omega) (by omega) (toNat_injective back)
        omega
      have second : (fillTables (doubled w g) n).val ≠ 0 := fun zero => by
        rw [fillTables_val steps positive] at zero
        exact power_ne_zero n (toNat_injective (zero.trans rfl))
      rw [fillChecked, ih (by omega)]
      dsimp only
      rw [if_neg first, if_neg second]
      rfl
  have closes : (fillTables (doubled w g) (2 ^ w - 1)).val = 1 := by
    rw [fillTables_val steps positive, primitive.period, toNat_one positive]
  have inverts : ((range' 1 (2 ^ w - 1)).find? fun v =>
      (fillTables (doubled w g) (2 ^ w - 1)).antilog ((fillTables (doubled w g) (2 ^ w - 1)).log v) ≠ v) = none := by
    refine find?_eq_none.mpr fun v listed => ?_
    rw [mem_range'_1] at listed
    have value : (ofNat v : GfSymbol w g).toNat = v := toNat_ofNat (by omega)
    obtain ⟨i, below, same⟩ := primitive.reach (ofNat v) fun zero => by
      rw [zero] at value
      have : (0 : GfSymbol w g).toNat = 0 := rfl
      omega
    rw [← value, ← same, fillTables_log steps le_rfl below, fillTables_antilog steps positive below]
    simp
  unfold buildTables
  rw [Nat.one_shiftLeft, if_neg (not_not_intro degree), filled le_rfl]
  dsimp only
  rw [if_neg (not_not_intro closes), inverts]
  exact ⟨_, rfl⟩

end Tables

/-- The two shapes of field. -/
inductive FieldSize
  | gf8
  | gf16
deriving DecidableEq, Repr

namespace FieldSize

def width : FieldSize → Nat
  | gf8 => 8
  | gf16 => 16

/-- `SYMBOL_BYTES`. -/
def symbolBytes : FieldSize → Nat
  | gf8 => 1
  | gf16 => 2

/-- `MAX`. -/
def max : FieldSize → Nat
  | gf8 => 255
  | gf16 => 65535

/-- `DEFAULT_GENERATOR`. -/
def defaultGenerator : FieldSize → Nat
  | gf8 => 0x11d
  | gf16 => 0x1100b

/-- `TABLE_THRESHOLD`. -/
def tableThreshold : FieldSize → Nat
  | gf8 => 256
  | gf16 => 2000

/-- The bytes from which on the default field uses the region kernels. -/
def kernelThreshold : FieldSize → Nat
  | gf8 => 128
  | gf16 => 0

variable (size : FieldSize)

theorem width_pos : 0 < size.width := by cases size <;> decide

theorem max_eq : size.max = 2 ^ size.width - 1 := by cases size <;> rfl

theorem max_lt : size.max < 2 ^ size.width := by cases size <;> decide

end FieldSize

/-- `Gf8` or `Gf16`: the tables of a generator that was accepted. -/
structure Field (size : FieldSize) (generator : Nat) where
  tables : LogTables
  built : buildTables generator size.width = .ok tables

/-- A block buffer of `n` symbols, each stored little endian. -/
abbrev Block (size : FieldSize) (generator n : Nat) := Fin n → GfSymbol size.width generator

namespace Field
variable {size : FieldSize} {g : Nat} (field : Field size g)

/-- The symbols of a field. -/
abbrev Symbol (size : FieldSize) (g : Nat) := GfSymbol size.width g

def mul (a b : Symbol size g) : Symbol size g :=
  if a = 0 ∨ b = 0 then 0 else .ofNat (field.tables.antilog (field.tables.log a.toNat + field.tables.log b.toNat))

def inv (a : Symbol size g) : Option (Symbol size g) :=
  if a = 0 then none else some (.ofNat (field.tables.antilog (size.max - field.tables.log a.toNat)))

def symbol (value : Nat) : Option (Symbol size g) := if value ≤ size.max then some (.ofNat value) else none

/-- `Gf8::row`: the products of one factor. -/
def row (factor : Symbol size g) (value : Nat) : Symbol size g :=
  if value = 0 then 0 else .ofNat (field.tables.antilog (field.tables.log factor.toNat + field.tables.log value))

/-- `Gf16::split_tables`: the products of one factor with a low or a high byte. -/
def splitTables (factor : Symbol size g) : (Nat → Symbol size g) × (Nat → Symbol size g) :=
  (fun value => if value = 0 then 0 else field.mul factor (.ofNat value),
    fun value => if value = 0 then 0 else field.mul factor (.ofNat (value <<< 8)))

/-- The product a region multiply looks up once it has built its tables. -/
def tableProduct (factor value : Symbol size g) : Symbol size g :=
  match size with
  | .gf8 => field.row factor value.toNat
  | .gf16 =>
    if value = 0 then 0
    else
      let (low, high) := field.splitTables factor
      high (value.toNat >>> 8) + low (value.toNat &&& 0xff)

/-- `mul_acc`; the region kernels of the default field are taken by what they compute. -/
def mulAcc {n : Nat} (dst src : Block size g n) (factor : Symbol size g) : Block size g n :=
  if g = size.defaultGenerator ∧ size.kernelThreshold ≤ n * size.symbolBytes then fun i => dst i + factor * src i
  else if factor = 0 then dst
  else if factor = 1 then fun i => dst i + src i
  else if size.tableThreshold ≤ n * size.symbolBytes then fun i => dst i + field.tableProduct factor (src i)
  else fun i => dst i + field.mul factor (src i)

theorem primitive (field : Field size g) : Primitive size.width g := (buildTables_spec size.width_pos field.built).1

theorem antilog_eq {i : Nat} (below : i < 2 * size.max) :
    (.ofNat (field.tables.antilog i) : Symbol size g) = power i := by
  obtain ⟨_, antilog, _⟩ := buildTables_spec size.width_pos field.built
  rw [antilog i (size.max_eq ▸ below), ofNat_toNat]

theorem symbol_eq {value : Nat} (small : value ≤ size.max) : (symbol value : Option (Symbol size g)) = some (.ofNat value) :=
  if_pos small

section Laws
variable [primitive : Primitive size.width g]

theorem exists_log {a : Symbol size g} (nonzero : a ≠ 0) :
    ∃ i < size.max, a = power i ∧ field.tables.log a.toNat = i := by
  obtain ⟨_, _, log⟩ := buildTables_spec size.width_pos field.built
  obtain ⟨i, below, rfl⟩ := primitive.reach a nonzero
  exact ⟨i, size.max_eq ▸ below, rfl, log i below⟩

theorem mul_eq (a b : Symbol size g) : field.mul a b = a * b := by
  unfold mul
  split_ifs with nonzero
  · grind
  · obtain ⟨i, below, rfl, logged⟩ := field.exists_log (mt Or.inl nonzero)
    obtain ⟨j, below', rfl, logged'⟩ := field.exists_log (mt Or.inr nonzero)
    rw [logged, logged', field.antilog_eq (by omega), power_mul_power]

theorem inv_eq (a : Symbol size g) : field.inv a = if a = 0 then none else some a⁻¹ := by
  unfold inv
  split_ifs with nonzero
  · rfl
  · obtain ⟨i, below, rfl, logged⟩ := field.exists_log nonzero
    rw [logged, field.antilog_eq (by omega)]
    refine congrArg some (eq_inv_of_mul_eq_one_left ?_)
    rw [power_mul_power, Nat.sub_add_cancel below.le, size.max_eq]
    exact primitive.period

theorem row_eq (factor value : Symbol size g) (nonzero : factor ≠ 0) : field.row factor value.toNat = factor * value := by
  have zero : value.toNat = 0 ↔ factor = 0 ∨ value = 0 := by
    rw [or_iff_right nonzero]
    exact toNat_injective.eq_iff (b := 0)
  rw [row, if_congr zero rfl rfl, ← field.mul_eq, mul]

/-- A word is the sum of its two bytes in place. -/
theorem split_bytes (value : Nat) : (value >>> 8) <<< 8 ^^^ (value &&& 0xff) = value := by
  apply eq_of_testBit_eq
  intro j
  rw [testBit_xor, testBit_shiftLeft, testBit_shiftRight, testBit_and,
    show (0xff : Nat) = 2 ^ 8 - 1 from rfl, testBit_two_pow_sub_one]
  by_cases high : 8 ≤ j
  · simp [high, show ¬j < 8 by omega, show 8 + (j - 8) = j by omega]
  · simp [high, show j < 8 by omega]

theorem tableProduct_eq (factor value : Symbol size g) (nonzero : factor ≠ 0) :
    field.tableProduct factor value = factor * value := by
  cases size with
  | gf8 => exact field.row_eq factor value nonzero
  | gf16 =>
    dsimp only [tableProduct, splitTables]
    by_cases zero : value = 0
    · rw [if_pos zero, zero, mul_zero]
    · have part (v : Nat) (shifted : Nat) (empty : v = 0 → shifted = 0) :
          (if v = 0 then 0 else field.mul factor (.ofNat shifted)) = factor * .ofNat shifted := by
        split_ifs with none_
        · rw [empty none_]
          exact (mul_zero factor).symm
        · exact field.mul_eq _ _
      rw [if_neg zero, part _ _ (fun none_ => by rw [none_]; rfl), part _ _ id, ← mul_add, ← ofNat_xor, split_bytes, ofNat_toNat]

/-- Every path of the region multiply adds the multiple. -/
theorem mulAcc_eq {n : Nat} (dst src : Block size g n) (factor : Symbol size g) :
    field.mulAcc dst src factor = dst + factor • src := by
  funext i
  unfold mulAcc
  rw [Pi.add_apply, Pi.smul_apply, smul_eq_mul]
  split
  · rfl
  split
  · grind
  split
  · rename_i one
    rw [one, one_mul]
  rename_i nonzero _
  split
  · exact congrArg _ (field.tableProduct_eq _ _ nonzero)
  · exact congrArg _ (field.mul_eq _ _)

end Laws
end Field
end Rarpar.Par3

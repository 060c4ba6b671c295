import Rarpar.Algebra.Accumulate
import Rarpar.ReedSolomon.LogTables

namespace Rarpar
open GfSymbol List

/-- The 8-bit symbols of RAR3, reduced by `x^8 + x^4 + x^3 + x^2 + 1`. -/
abbrev Byte := GfSymbol 8 0x11D

namespace Rar3RsCoder

def maxPar : Nat := 255

def gfStep (j : Nat) : Nat :=
  let j := j <<< 1
  if maxPar < j then j ^^^ 0x11D else j

def gfTables : LogTables := fillTables gfStep maxPar

/-- The exponent table repeats its first `maxPar` entries. -/
def gfExp (i : Nat) : Byte := .ofNat (gfTables.antilog (i % maxPar))

def gfLog (a : Byte) : Nat := gfTables.log a.toNat

def gfMult (a b : Byte) : Byte := if a = 0 ∨ b = 0 then 0 else gfExp (gfLog a + gfLog b)

/-- The terms of one coefficient of `p1`, added to the result below `parSize`. -/
def pnRow (parSize : Nat) (p1 p2 result : Nat → Byte) (i : Nat) : Nat → Byte :=
  if p1 i = 0 then result
  else (List.range (parSize - i)).foldl (fun result j =>
    Function.update result (i + j) (result (i + j) + gfMult (p1 i) (p2 j))) result

/-- The product truncated to its first `parSize` coefficients. -/
def pnMult (parSize : Nat) (p1 p2 : Nat → Byte) : Nat → Byte :=
  (List.range parSize).foldl (pnRow parSize p1 p2) fun _ => 0

/-- The generator polynomial without its leading coefficient. -/
def pnInit (parSize : Nat) : Nat → Byte :=
  (List.range' 1 parSize).foldl
    (fun p2 i => pnMult parSize (fun k => if k = 0 then gfExp i else if k = 1 then 1 else 0) p2)
    fun k => if k = 0 then 1 else 0

end Rar3RsCoder

/-- The locator polynomial, with the erasures and the block length it was built for.
`errors` holds each root that the search found: its position and its derivative. -/
structure Rar3Locator where
  erasures : List Nat
  dataSize : Nat
  elPol : Nat → Byte
  errors : List (Nat × Byte)

/-- A coder keeps the locator of the last block it had to correct. -/
structure Rar3RsCoder where
  parSize : Nat
  gxPol : Nat → Byte
  locator : Option Rar3Locator

namespace Rar3RsCoder

def new (parSize : Nat) : Option Rar3RsCoder :=
  if parSize = 0 ∨ maxPar < parSize then none else some ⟨parSize, pnInit parSize, none⟩

/-- One symbol shifted into the register. The register is updated from its top, so
each stage reads the old value of the stage below; no stage from `parSize` on is read. -/
def shiftStep (parSize : Nat) (gxPol : Nat → Byte) (shiftReg : Nat → Byte) (byte : Byte) : Nat → Byte :=
  let d := byte + shiftReg (parSize - 1)
  fun j => if j = 0 then gfMult (gxPol 0) d else shiftReg (j - 1) + gfMult (gxPol j) d

def encode (coder : Rar3RsCoder) (data : List Byte) : List Byte :=
  let shiftReg := data.foldl (shiftStep coder.parSize coder.gxPol) fun _ => 0
  (List.range coder.parSize).map fun i => shiftReg (coder.parSize - i - 1)

def syndrome (data : List Byte) (i : Nat) : Byte :=
  data.foldl (fun sum byte => byte + gfMult (gfExp (i + 1)) sum) 0

/-- One erasure multiplied into the locator, from its top coefficient down. -/
def locatorStep (parSize dataSize : Nat) (elPol : Nat → Byte) (eraPos : Nat) : Nat → Byte :=
  let m := gfExp (dataSize - eraPos - 1)
  fun i => if 1 ≤ i ∧ i ≤ parSize then elPol i + gfMult m (elPol (i - 1)) else elPol i

def locatorPol (parSize dataSize : Nat) (erasures : List Nat) : Nat → Byte :=
  erasures.foldl (locatorStep parSize dataSize) fun i => if i = 0 then 1 else 0

/-- The value of the locator at the power `root` of the generator. -/
def rootSum (parSize : Nat) (elPol : Nat → Byte) (root : Nat) : Byte :=
  (List.range (parSize + 1)).foldl (fun sum b => sum + gfMult (gfExp (b * root % maxPar)) (elPol b)) 0

/-- The formal derivative, from the odd coefficients. -/
def rootDerivative (parSize : Nat) (elPol : Nat → Byte) (root : Nat) : Byte :=
  ((List.range' 1 parSize).filter (· % 2 = 1)).foldl
    (fun dnm i => dnm + gfMult (elPol i) (gfExp (root * (i - 1) % maxPar))) 0

/-- The root search over the exponents a block of this length can reach. -/
def searchRoots (parSize dataSize : Nat) (elPol : Nat → Byte) : List (Nat × Byte) :=
  ((List.range' (maxPar - dataSize) (dataSize + 1)).filter fun root => rootSum parSize elPol root = 0).map
    fun root => (maxPar - root, rootDerivative parSize elPol root)

def buildLocator (parSize dataSize : Nat) (erasures : List Nat) : Rar3Locator :=
  let elPol := locatorPol parSize dataSize erasures
  ⟨erasures, dataSize, elPol, searchRoots parSize dataSize elPol⟩

/-- The cached locator is kept only for the same erasures and the same block length. -/
def currentLocator (coder : Rar3RsCoder) (dataSize : Nat) (erasures : List Nat) : Rar3Locator :=
  match coder.locator with
  | none => buildLocator coder.parSize dataSize erasures
  | some locator =>
    if locator.dataSize ≠ dataSize ∨ locator.erasures ≠ erasures then
      buildLocator coder.parSize dataSize erasures
    else locator

/-- The evaluator at the inverse of position `loc`. -/
def evaluate (parSize : Nat) (eePol : Nat → Byte) (loc : Nat) : Byte :=
  (List.range parSize).foldl (fun n j => n + gfMult (eePol j) (gfExp ((maxPar - loc) * j % maxPar))) 0

/-- Corrects one found position; a position past the block is skipped. -/
def correct (parSize : Nat) (eePol : Nat → Byte) (data : List Byte) (error : Nat × Byte) : List Byte :=
  let (loc, dnm) := error
  if loc + 1 ≤ data.length then
    data.modify (data.length - loc - 1)
      (· + gfMult (evaluate parSize eePol loc) (gfExp (maxPar - gfLog dnm)))
  else data

/-- Returns the coder with its cache, the block after correction and the verdict. -/
def decode (coder : Rar3RsCoder) (data : List Byte) (erasures : List Nat) : Rar3RsCoder × List Byte × Bool :=
  let dataSize := data.length
  if dataSize = 0 ∨ maxPar < dataSize ∨ coder.parSize < erasures.length ∨ ∃ loc ∈ erasures, dataSize ≤ loc then
    (coder, data, false)
  else if ∀ i < coder.parSize, syndrome data i = 0 then (coder, data, true)
  else
    let locator := coder.currentLocator dataSize erasures
    let eePol := pnMult coder.parSize locator.elPol (syndrome data)
    let coder := { coder with locator := some locator }
    let errCount := locator.errors.length
    if errCount ≤ coder.parSize ∧ 0 < errCount then
      (coder, locator.errors.foldl (correct coder.parSize eePol) data, decide (errCount ≤ coder.parSize))
    else (coder, data, decide (errCount ≤ coder.parSize))

theorem gfStep_toNat (a : Byte) : gfStep a.toNat = (turn a).toNat := by
  have steps : ∀ j < 2 ^ 8, gfStep j = doubled 8 0x11D j := by decide +kernel
  rw [steps a.toNat (toNat_lt a)]
  exact doubled_toNat (by norm_num) (by decide) a

theorem gfExp_eq (i : Nat) : gfExp i = power i := by
  have bound : i % maxPar < maxPar := Nat.mod_lt i (by decide)
  rw [gfExp, gfTables, fillTables_antilog gfStep_toNat (by decide) bound, ofNat_toNat]
  exact power_mod i

theorem gfLog_power {i : Nat} (bound : i < maxPar) : gfLog (power i) = i :=
  fillTables_log gfStep_toNat (by decide) bound

theorem exists_gfLog {a : Byte} (nonzero : a ≠ 0) : ∃ i < maxPar, a = power i ∧ gfLog a = i := by
  obtain ⟨i, bound, rfl⟩ := Primitive.reach a nonzero
  exact ⟨i, bound, rfl, gfLog_power bound⟩

theorem gfMult_eq (a b : Byte) : gfMult a b = a * b := by
  unfold gfMult
  split_ifs with zero
  · rcases zero with rfl | rfl <;> simp
  · obtain ⟨i, _, rfl, li⟩ := exists_gfLog (mt Or.inl zero)
    obtain ⟨j, _, rfl, lj⟩ := exists_gfLog (mt Or.inr zero)
    rw [li, lj, gfExp_eq, power_mul_power]

theorem gfExp_inv {a : Byte} (nonzero : a ≠ 0) : gfExp (maxPar - gfLog a) = a⁻¹ := by
  obtain ⟨i, bound, rfl, logged⟩ := exists_gfLog nonzero
  rw [logged, gfExp_eq]
  apply eq_inv_of_mul_eq_one_left
  rw [power_mul_power, Nat.sub_add_cancel bound.le]
  exact Primitive.period (w := 8) (g := 0x11D)

/-- Below `parSize` the rows add the coefficients of the product. -/
theorem foldl_pnRow {parSize k : Nat} (below : k < parSize) (p1 p2 result : Nat → Byte) :
    (range parSize).foldl (pnRow parSize p1 p2) result k =
      result k + ∑ i ∈ Finset.range (k + 1), p1 i * p2 (k - i) := by
  have rows (n : Nat) (bound : n ≤ parSize) : (range n).foldl (pnRow parSize p1 p2) result k =
      result k + ∑ i ∈ Finset.range n, if i ≤ k then p1 i * p2 (k - i) else 0 := by
    induction n with
    | zero => simp
    | succ n ih =>
      rw [range_succ, foldl_append, foldl_cons, foldl_nil, Finset.sum_range_succ,
        ← add_assoc, ← ih (by omega), pnRow]
      split
      · rename_i zero
        simp [zero]
      · rw [Accumulate.foldl_update_add (fun j => gfMult (p1 n) (p2 j))]
        have range : (n ≤ k ∧ k < n + (parSize - n)) ↔ n ≤ k := by omega
        simp only [range, gfMult_eq]
  rw [rows parSize le_rfl, ← Finset.sum_filter]
  refine congrArg _ (Finset.sum_congr ?_ fun i _ => rfl)
  ext i
  simp only [Finset.mem_filter, Finset.mem_range]
  omega

theorem pnMult_eq {parSize k : Nat} (below : k < parSize) (p1 p2 : Nat → Byte) :
    pnMult parSize p1 p2 k = ∑ i ∈ Finset.range (k + 1), p1 i * p2 (k - i) := by
  rw [pnMult, foldl_pnRow below, zero_add]

end Rar3RsCoder
end Rarpar

import Rarpar.ReedSolomon.DecodeApply

namespace Rarpar
open GfSimd DecodeApply List

/-- The coder of a RAR5 recovery set: one row of coefficients per output, one
column per data unit. -/
structure Rar5RsCoder (dataCount outputCount : Nat) where
  matrix : Matrix (Fin outputCount) (Fin dataCount) Word

namespace Rar5RsCoder

def gfSize : Nat := 65535

/-- Flags are ordered as all data volumes followed by all recovery volumes. -/
def valid (validFlags : List Bool) (volume : Nat) : Bool := validFlags.getD volume false

def missingDataCount (dataCount : Nat) (validFlags : List Bool) : Nat :=
  (validFlags.take dataCount).countP (!·)

def validRecoveryCount (dataCount : Nat) (validFlags : List Bool) : Nat :=
  (validFlags.drop dataCount).countP (·)

/-- Collects the next `count` wanted rows, skipping the others; `none` when the
rows run out. -/
def scanRows {ι : Type*} (wanted : ι → Bool) : Nat → List ι → Option (List ι)
  | 0, _ => some []
  | count + 1, rows =>
    match rows.dropWhile (!wanted ·) with
    | [] => none
    | row :: rest => (scanRows wanted count rest).map (row :: ·)

def makeDecoderMatrix (dataCount : Nat) (validFlags : List Bool) (missing : Nat) :
    Except Panic (Option (Matrix (Fin missing) (Fin dataCount) Word)) :=
  match scanRows (valid validFlags) missing (List.range' dataCount (validFlags.length - dataCount)) with
  | none => .ok none
  | some recoveryRows =>
    (Gf.invCells fun dest col => GfSymbol.ofNat (recoveryRows.getD dest 0) + .ofNat col).map some

section Invert
variable {missing dataCount : Nat}

/-- A present column is folded into the inverse as it stands when it is reached. -/
def foldColumn (col : Fin dataCount) (matrix inverse : Matrix (Fin missing) (Fin dataCount) Word) :
    Matrix (Fin missing) (Fin dataCount) Word := fun row c =>
  if c = col then inverse row c + matrix row c else inverse row c

/-- Scales the pivot row of `target` and subtracts it from the other rows, with the
factors that `matrix` holds in the pivot column. -/
def eliminateRows (pivotRow : Fin missing) (col : Fin dataCount) (pivotInv : Word)
    (matrix target : Matrix (Fin missing) (Fin dataCount) Word) :
    Matrix (Fin missing) (Fin dataCount) Word := fun row c =>
  if row = pivotRow then Gf.mul (target row c) pivotInv
  else
    let factor := matrix row col
    if factor = 0 then target row c
    else target row c + Gf.mul (Gf.mul (target pivotRow c) pivotInv) factor

/-- The column loop, from the column at the head of the list and the reduced row
that its next missing column will use. -/
def invertColumns (present : Fin dataCount → Bool) : List (Fin dataCount) → Nat →
    Matrix (Fin missing) (Fin dataCount) Word → Matrix (Fin missing) (Fin dataCount) Word →
    Except Panic (Option (Matrix (Fin missing) (Fin dataCount) Word))
  | [], _, _, inverse => .ok (some inverse)
  | col :: rest, reducedRow, matrix, inverse =>
    if present col then invertColumns present rest reducedRow matrix (foldColumn col matrix inverse)
    else if inside : reducedRow < missing then
      let pivotRow : Fin missing := ⟨reducedRow, inside⟩
      let pivot := matrix pivotRow col
      if pivot = 0 then .ok none
      else match Gf.inv pivot with
        | .error panic => .error panic
        | .ok pivotInv => invertColumns present rest (reducedRow + 1)
            (eliminateRows pivotRow col pivotInv matrix matrix) (eliminateRows pivotRow col pivotInv matrix inverse)
    else .ok none

def invertDecoderMatrix (validFlags : List Bool) (matrix : Matrix (Fin missing) (Fin dataCount) Word) :
    Except Panic (Option (Matrix (Fin missing) (Fin dataCount) Word)) :=
  let present : Fin dataCount → Bool := fun col => valid validFlags col
  match scanRows (fun col => !present col) missing (List.finRange dataCount) with
  | none => .ok none
  | some keys =>
    invertColumns present (List.finRange dataCount) 0 matrix fun row col =>
      if keys[(row : Nat)]? = some col then 1 else 0

end Invert

def newDecoder (dataCount recCount : Nat) (validFlags : List Bool) :
    Except Panic (Option (Rar5RsCoder dataCount (missingDataCount dataCount validFlags))) :=
  if dataCount = 0 ∨ recCount = 0 ∨ gfSize < dataCount + recCount ∨
      validFlags.length ≠ dataCount + recCount then .ok none
  else if missingDataCount dataCount validFlags = 0 ∨ validRecoveryCount dataCount validFlags = 0 ∨
      validRecoveryCount dataCount validFlags < missingDataCount dataCount validFlags then .ok none
  else do
    match ← makeDecoderMatrix dataCount validFlags (missingDataCount dataCount validFlags) with
    | none => return none
    | some matrix => return (← invertDecoderMatrix validFlags matrix).map .mk

def newEncoder (dataCount recCount : Nat) : Except Panic (Option (Rar5RsCoder dataCount recCount)) :=
  if dataCount = 0 ∨ recCount = 0 ∨ gfSize < dataCount + recCount then .ok none
  else do
    let matrix ← Gf.invCells fun rec col => GfSymbol.ofNat (rec + dataCount) + .ofNat col
    return some ⟨matrix⟩

section Outputs
variable {dataCount outputCount words : Nat}

/-- Applies one data unit to every output row. The first unit clears the rows. -/
def updateOutputs (coder : Rar5RsCoder dataCount outputCount) (dataNum : Fin dataCount) (data : Region words)
    (outputs : Fin outputCount → Region words) : Fin outputCount → Region words :=
  let outputs := if (dataNum : Nat) = 0 then fun _ => 0 else outputs
  fun row =>
    let factor := coder.matrix row dataNum
    if factor ≠ 0 then mulAccRegion factor data (outputs row) else outputs row

/-- A full pass gives every data unit in order. -/
def pass (coder : Rar5RsCoder dataCount outputCount) (units : Fin dataCount → Region words)
    (outputs : Fin outputCount → Region words) : Fin outputCount → Region words :=
  (List.finRange dataCount).foldl (fun outputs dataNum => coder.updateOutputs dataNum (units dataNum) outputs) outputs

def applyUnits (coder : Rar5RsCoder dataCount outputCount) (threads width : Nat)
    (units : Fin dataCount → Region words) (outputs : Fin outputCount → Region words) :
    Fin outputCount → Region words :=
  applyDecodeMatrixGf16 threads width coder.matrix units outputs

section
variable (coder : Rar5RsCoder dataCount outputCount)
include coder

theorem updateOutputs_eq (dataNum : Fin dataCount)
    (data : Region words) (outputs : Fin outputCount → Region words) (row : Fin outputCount) :
    coder.updateOutputs dataNum data outputs row =
      (if (dataNum : Nat) = 0 then 0 else outputs row) + coder.matrix row dataNum • data := by
  have cleared : (if (dataNum : Nat) = 0 then (fun _ => 0) else outputs) row =
      if (dataNum : Nat) = 0 then 0 else outputs row := by split <;> rfl
  simp only [updateOutputs, cleared, mulAccRegion_eq]
  split
  · rfl
  · rename_i zero
    rw [not_ne_iff.mp zero, zero_smul, add_zero]

theorem foldl_updateOutputs_of_pos
    (units : Fin dataCount → Region words) (rest : List (Fin dataCount)) (later : ∀ d ∈ rest, (d : Nat) ≠ 0)
    (outputs : Fin outputCount → Region words) (row : Fin outputCount) :
    rest.foldl (fun outputs d => coder.updateOutputs d (units d) outputs) outputs row =
      outputs row + (rest.map fun d => coder.matrix row d • units d).sum := by
  induction rest generalizing outputs with
  | nil => simp
  | cons d rest ih =>
    rw [foldl_cons, ih fun e member => later e (mem_cons_of_mem d member), updateOutputs_eq,
      if_neg (later d mem_cons_self), map_cons, sum_cons, add_assoc]

/-- A full pass leaves the matrix product of the units, whatever the outputs held. -/
theorem pass_eq (positive : 1 ≤ dataCount)
    (units : Fin dataCount → Region words) (outputs : Fin outputCount → Region words) (row : Fin outputCount) :
    coder.pass units outputs row = ∑ d, coder.matrix row d • units d := by
  obtain ⟨n, rfl⟩ := Nat.exists_eq_add_of_le' positive
  rw [pass, finRange_succ, foldl_cons, foldl_updateOutputs_of_pos, updateOutputs_eq, Fin.sum_univ_succ,
    ← sum_ofFn, ofFn_eq_map, map_map]
  · simp [Function.comp_def]
  · intro d member
    obtain ⟨e, _, rfl⟩ := mem_map.mp member
    simp

end

end Outputs
end Rar5RsCoder
end Rarpar

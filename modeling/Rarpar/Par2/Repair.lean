import Rarpar.Algebra.GreedyRows
import Rarpar.Par2.FileSet
import Rarpar.Par2.Matrix

namespace Rarpar
open Matrix Elimination

namespace Par2

inductive Repairability where
  | notNeeded
  | repairable (blocksNeeded blocksAvailable : Nat)
  | insufficient (blocksNeeded blocksAvailable deficit : Nat)
  | resourceLimited (reason : String)

structure FileVerification where
  fileId : FileId
  validSlices : List Bool

structure VerificationResult where
  files : List FileVerification
  repairable : Repairability

structure RepairPlan where
  missingSlices : List (FileId × Nat)
  missingGlobalIndices : List Nat
  availableInputGlobalIndices : List Nat
  recoveryExponents : List Nat
  decodeMatrix : RowMatrix
  inputFactors : RowMatrix
  sliceSize : Nat
  constants : List Word
  totalInputSlices : Nat
  globalToFile : List (FileId × Nat)

def defaultRepairMemoryLimit : Nat := 128 * 1024 * 1024

def matrixWorkspaceBudgetFloor : Nat := 1024 * 1024 * 1024

def usizeMax : Nat := 2 ^ 64 - 1

def saturatingAdd (a b : Nat) : Nat := min (a + b) usizeMax

def saturatingMul (a b : Nat) : Nat := min (a * b) usizeMax

def estimatedRepairMatrixBytes (totalInputs missingRows : Nat) : Nat :=
  saturatingMul (saturatingAdd (saturatingMul missingRows missingRows) (saturatingMul missingRows totalInputs)) 2

def repairMemoryLimitBytes (memoryLimit : Option Nat) : Nat := memoryLimit.getD defaultRepairMemoryLimit

def repairMatrixLimitReason (totalInputSlices missingCount : Nat) (memoryLimit : Option Nat) : Option String :=
  if maxTotalInputSlices < totalInputSlices then
    some s!"recovery set has {totalInputSlices} input slices; PAR2 supports at most {maxTotalInputSlices}"
  else
    let estimated := estimatedRepairMatrixBytes totalInputSlices missingCount
    let limit := max (repairMemoryLimitBytes memoryLimit) matrixWorkspaceBudgetFloor
    if limit < estimated then
      some (s!"repair matrix for {missingCount} missing slices would require {estimated} bytes, " ++
        s!"exceeding the {limit} byte matrix workspace budget")
    else none

def checkRepairable : Repairability → Except Par2Error Unit
  | .notNeeded => .error (.reedSolomonError "no repair needed")
  | .insufficient needed available deficit => .error (.insufficientRecoveryData needed available deficit)
  | .resourceLimited reason => .error (.resourceLimitExceeded s!"PAR2 verification is resource-limited: {reason}")
  | .repairable _ _ => .ok ()

/-- The slices of one file of the recovery set. -/
def fileSlices (set : Par2FileSet) (fileId : FileId) : List (FileId × Nat) :=
  match set.files.lookup fileId with
  | none => []
  | some description => (List.range (set.sliceCountForFile description.length)).map fun s => (fileId, s)

def addFileSlices (set : Par2FileSet) (slices : List (FileId × Nat)) (fileId : FileId) :
    Except Par2Error (List (FileId × Nat)) :=
  match set.files.lookup fileId with
  | none => .ok slices
  | some description =>
    let sliceCount := set.sliceCountForFile description.length
    if maxSlicesPerFile < sliceCount then
      .error (.resourceLimitExceeded
        s!"file {description.filename} has {sliceCount} PAR2 slices; max is {maxSlicesPerFile}")
    else .ok (slices ++ fileSlices set fileId)

/-- The global slice order: the files of the recovery set, the slices of each in order. -/
def globalToFile (set : Par2FileSet) : Except Par2Error (List (FileId × Nat)) :=
  set.recoveryFileIds.foldlM (addFileSlices set) []

def isValidSlice (verification : VerificationResult) (slice : FileId × Nat) : Bool :=
  match verification.files.find? (·.fileId = slice.1) with
  | none => false
  | some file => file.validSlices.getD slice.2 false

/-- The slices that verification did not find valid, in the global order. -/
def missingGlobalIndices (verification : VerificationResult) (slices : List (FileId × Nat)) :
    List (Fin slices.length) :=
  (List.finRange slices.length).filter fun g => !isValidSlice verification (slices.get g)

def availableInputGlobalIndices (verification : VerificationResult) (slices : List (FileId × Nat)) :
    List (Fin slices.length) :=
  (List.finRange slices.length).filter (· ∉ missingGlobalIndices verification slices)

section Select
variable (valid : Nat → Bool) (build : List Nat → Except DecodeMatrixError (RowMatrix × RowMatrix)) (count : Nat)

/-- The first selected candidate whose packet hash fails. -/
def corruptSelection (candidates : List Nat) : Option (Fin candidates.length) :=
  (List.finRange candidates.length).find? fun p : Fin candidates.length =>
    decide (p < count) && !valid (candidates.get p)

/-- The candidate to drop after a singular matrix: the named row, or else the first
selected one whose removal gives a regular matrix, or else the last selected one. -/
def skipCandidate (candidates : List Nat) (error : DecodeMatrixError) : Option (Fin candidates.length) :=
  let selected := (List.finRange candidates.length).take count
  (error.badRow.bind fun row => selected[row]?).or <|
    (selected.find? fun p : Fin candidates.length =>
      let trial := (candidates.eraseIdx p).take count
      decide (count ≤ trial.length) && (build trial).isOk).or
    selected.getLast?

/-- The skip-and-retry loop. `candidates` are the stored exponents that are not skipped,
in ascending order, and the selection is always their first `count`. -/
def selectRows (candidates : List Nat) : Except Panic (Except Par2Error (List Nat × RowMatrix × RowMatrix)) :=
  let selected := candidates.take count
  if selected.length < count then
    .ok (.error (.insufficientRecoveryData count selected.length (count - selected.length)))
  else
    match corruptSelection valid count candidates with
    | some skip => selectRows (candidates.eraseIdx skip)
    | none =>
      match build selected with
      | .ok (inputFactors, decode) => .ok (.ok (selected, inputFactors, decode))
      | .error error =>
        match skipCandidate build count candidates error with
        | some skip => selectRows (candidates.eraseIdx skip)
        | none => .error .assertion
termination_by candidates.length
decreasing_by
  all_goals
    rw [List.length_eraseIdx_of_lt skip.isLt]
    have := skip.isLt
    omega

end Select

/-- Plans the repair of the missing slices from the stored recovery blocks.
`validatePacketHash` is the outcome of hashing a stored block. -/
def planRepairWithMemoryLimit (validatePacketHash : RecoverySlice → Bool) (tiledEnvEnabled : Bool) (set : Par2FileSet)
    (verification : VerificationResult) (memoryLimit : Option Nat) : Except Panic (Except Par2Error RepairPlan) :=
  match checkRepairable verification.repairable with
  | .error error => .ok (.error error)
  | .ok () =>
    match globalToFile set with
    | .error error => .ok (.error error)
    | .ok slices =>
      let total := slices.length
      if maxTotalInputSlices < total then
        .ok (.error (.resourceLimitExceeded
          s!"recovery set has {total} input slices; PAR2 supports at most {maxTotalInputSlices}"))
      else
        let missing := missingGlobalIndices verification slices
        let missingCount := missing.length
        let allExponents := set.recoverySlices.keys.sort
        if allExponents.length < missingCount then
          .ok (.error (.insufficientRecoveryData missingCount allExponents.length (missingCount - allExponents.length)))
        else
          match repairMatrixLimitReason total missingCount memoryLimit with
          | some reason => .ok (.error (.resourceLimitExceeded reason))
          | none => do
            let constants ← Gf.inputSliceConstants total
            if inside : total ≤ constants.length then
              let available := availableInputGlobalIndices verification slices
              let valid := fun exponent => (set.recoverySlices.lookup exponent).any validatePacketHash
              let build := fun selected => buildRepairMatrixCore constants (available.map (Fin.castLE inside))
                (missing.map (Fin.castLE inside)) selected none tiledEnvEnabled
              let chosen ← selectRows valid build missingCount allExponents
              return chosen.map fun (recoveryExponents, inputFactors, decode) =>
                { missingSlices := missing.map slices.get
                  missingGlobalIndices := missing.map Fin.val
                  availableInputGlobalIndices := available.map Fin.val
                  recoveryExponents := recoveryExponents
                  decodeMatrix := decode
                  inputFactors := inputFactors
                  sliceSize := set.sliceSize
                  constants := constants
                  totalInputSlices := total
                  globalToFile := slices }
            else .error .assertion

def planRepair (validatePacketHash : RecoverySlice → Bool) (tiledEnvEnabled : Bool) (set : Par2FileSet)
    (verification : VerificationResult) : Except Panic (Except Par2Error RepairPlan) :=
  planRepairWithMemoryLimit validatePacketHash tiledEnvEnabled set verification (some defaultRepairMemoryLimit)

end Par2
end Rarpar

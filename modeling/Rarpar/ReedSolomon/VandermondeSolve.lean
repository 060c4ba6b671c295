import Rarpar.Data.Buffer
import Rarpar.ReedSolomon.Region

namespace Rarpar
open GfSymbol Buffer GfSimd

namespace VandermondeSolve

def small : Nat := 255

def large : Nat := 257

/-- The inverse of 257 modulo 255 and of 255 modulo 257. -/
def crtInverse : Nat := 128

/-- Segment length of the blocked correlation. -/
def block : Nat := 128

/-- Length of its cyclic convolution. -/
def conv : Nat := 2 * block - 1

def batchSources : Nat := 8

def groupedMinRows : Nat := 512

def transformMinRows : Nat := groupedMinRows

inductive SolveError where
  | nonConsecutive
  | constants
  | geometry
  | cancelled
deriving DecidableEq

inductive SolveStrategy where
  | direct
  | groupedEvaluation
  | transformed
  | auto

/-- Whether stage 1 is blocked and whether stage 2 is grouped. -/
def SolveStrategy.stages (strategy : SolveStrategy) (rows : Nat) : Bool × Bool :=
  match strategy with
  | .direct => (false, false)
  | .groupedEvaluation => (false, true)
  | .transformed => (true, true)
  | .auto => (decide (transformMinRows ≤ rows), decide (groupedMinRows ≤ rows))

/-- The unknowns `(row, 128 * (log mod 257) mod 257)` that share `128 * (log mod 255) mod 255`. -/
structure EvalGroup where
  small : Nat
  members : List (Nat × Nat)

structure GroupedEval where
  alpha : Nat → Word
  beta : Nat → Word
  groups : List EvalGroup

/-- `kernel s point` is the spectrum of the reversed locator window `s`; the radix
matrices are `forward radix k n` and `inverse radix k n`. -/
structure ConvolutionPlan where
  segments : Nat
  kernel : Nat → Nat → Word
  forward : Nat → Nat → Nat → Word
  inverse : Nat → Nat → Nat → Word

structure ConsecutiveSolvePlan where
  rows : Nat
  locator : Nat → Word
  scale : List Word
  constants : List Word
  convolution : Option ConvolutionPlan
  grouped : Option GroupedEval

/-- Multiplies one root into the locator of the given degree, highest coefficient first. -/
def multiplyRoot (p : Nat → Word) (root : Word) (degree : Nat) : Nat → Word :=
  (List.range (degree + 2)).reverse.foldl (fun p j =>
    let shifted := if 0 < j then p (j - 1) else 0
    Function.update p j (shifted + Gf.mul root (p j))) p

def locatorPolynomial (roots : List Word) : Nat → Word :=
  roots.zipIdx.foldl (fun p entry => multiplyRoot p entry.1 entry.2) (Function.update (fun _ => 0) 0 1)

/-- Horner's rule over the odd coefficients below `2 * count`, downward. -/
def derivativeLoop (locator : Nat → Word) (square : Word) : Nat → Word → Word
  | 0, acc => acc
  | count + 1, acc => derivativeLoop locator square count (Gf.mul acc square + locator (2 * count + 1))

/-- The formal derivative of a locator of the given degree. -/
def evaluateDerivative (locator : Nat → Word) (degree : Nat) (x : Word) : Word :=
  derivativeLoop locator (Gf.mul x x) ((degree + 1) / 2) 0

/-- The element of `Z/255` that is one modulo `radix` and zero modulo the other two radices. -/
def radixWeight (radix : Nat) : Nat :=
  let cofactor := conv / radix
  cofactor * ((List.range' 1 (radix - 1)).find? fun step => cofactor * step % radix == 1).getD 0

def root (i : Nat) : Word := Gf.pow (.ofNat 2) (large * i)

def radixMatrix (inverse : Bool) (radix k n : Nat) : Word :=
  let exponent := radixWeight radix * k * n % conv
  root (if inverse ∧ exponent ≠ 0 then conv - exponent else exponent)

/-- The spectrum of the reversed locator window `s` at one point. -/
def kernelEntry (locator : Nat → Word) (degree s point : Nat) : Word :=
  (List.range conv).foldl (fun slot w =>
    let index := s * block + 2 * block - 1 - w
    let coefficient := if index < degree + 1 then locator index else 0
    if coefficient = 0 then slot else slot + Gf.mul coefficient (root (point * w % conv))) 0

def ConvolutionPlan.build (locator : Nat → Word) (rows : Nat) : ConvolutionPlan where
  segments := (rows + (block - 1)) / block
  kernel := kernelEntry locator rows
  forward := radixMatrix false
  inverse := radixMatrix true

/-- Adds one unknown to the group of its residue, or opens the group. -/
def addMember (state : (Nat → Option Nat) × List EvalGroup) (entry : Nat × Nat) :
    (Nat → Option Nat) × List EvalGroup :=
  let (log, row) := entry
  let residue := crtInverse * (log % small) % small
  let member := (row, crtInverse * (log % large) % large)
  match state.1 residue with
  | none => (Function.update state.1 residue (some state.2.length), state.2 ++ [⟨residue, [member]⟩])
  | some slot => (state.1, state.2.modify slot fun group => { group with members := group.members ++ [member] })

def GroupedEval.build (missingLogs : List Nat) : GroupedEval where
  alpha i := Gf.pow (Gf.pow (.ofNat 2) large) i
  beta j := Gf.pow (Gf.pow (.ofNat 2) small) j
  groups := (missingLogs.zipIdx.foldl addMember (fun _ => none, [])).2

def scaleFactor (locator : Nat → Word) (degree firstExponent : Nat) (g : Word) : Except Panic Word := do
  let derivative ← Gf.inv (evaluateDerivative locator degree g)
  let power ← Gf.inv (Gf.pow g firstExponent)
  return Gf.mul derivative power

/-- The constants of the missing logs, or an error for a log out of range or repeated. -/
def collectMissing (seen : List Nat) : List Nat → Except SolveError (List Word)
  | [] => .ok []
  | log :: rest =>
    if Gf.order ≤ log ∨ log ∈ seen then .error .constants
    else (collectMissing (log :: seen) rest).map (Gf.powFromLog 1 log :: ·)

def buildWithStrategy (missingLogs : List Nat) (firstExponent : Nat) (strategy : SolveStrategy) :
    Except Panic (Except SolveError ConsecutiveSolvePlan) :=
  let rows := missingLogs.length
  if Gf.order < rows then .ok (.error .constants)
  else
    match collectMissing [] missingLogs with
    | .error error => .ok (.error error)
    | .ok constants => do
      let locator := locatorPolynomial constants
      let scale ← constants.mapM (scaleFactor locator rows firstExponent)
      let (blocked, grouped) := strategy.stages rows
      return .ok
        { rows := rows
          locator := locator
          scale := scale
          constants := constants
          convolution := if blocked then some (.build locator rows) else none
          grouped := if grouped then some (.build missingLogs) else none }

def build (missingLogs : List Nat) (firstExponent : Nat) : Except Panic (Except SolveError ConsecutiveSolvePlan) :=
  buildWithStrategy missingLogs firstExponent .auto

/-- The addition of 32-bit exponents that reports overflow. -/
def checkedAdd (a b : Nat) : Option Nat := if a + b < 2 ^ 32 then some (a + b) else none

def buildForExponents (missingLogs exponents : List Nat) : Except Panic (Except SolveError ConsecutiveSolvePlan) :=
  if exponents.length ≠ missingLogs.length then .ok (.error .geometry)
  else
    match exponents with
    | [] => build missingLogs 0
    | first :: _ =>
      if exponents.zipIdx.any fun entry => checkedAdd first entry.2 != some entry.1 then .ok (.error .nonConsecutive)
      else build missingLogs first

section Stripe
variable {words : Nat}

def fold (dst : Region words) (terms : List (Word × Region words)) : Region words :=
  mulAccBatches batchSources dst terms

/-- The coordinates `(n mod 3, n mod 5, n mod 17)` in the order of the arenas. -/
def splitIndex (three five seventeen : Nat) : Nat := (three * 5 + five) * 17 + seventeen

def naturalIndex (three five seventeen : Nat) : Nat :=
  (radixWeight 3 * three + radixWeight 5 * five + radixWeight 17 * seventeen) % conv

/-- The radix-17 stage on the rows of one segment that exist. -/
def radix17Forward (syndromes : Nat → Region words) (firstRow live : Nat) (matrix : Nat → Nat → Word)
    (dst : Nat → Region words) : Nat → Region words :=
  write ((grid 3 5 17).map fun (three, five, k) =>
    (splitIndex three five k,
      fold 0 (((List.range live).filter fun row => row % 3 = three ∧ row % 5 = five).map fun row =>
        (matrix k (row % 17), syndromes (firstRow + row))))) dst

def radix5 (src : Nat → Region words) (matrix : Nat → Nat → Word) (dst : Nat → Region words) : Nat → Region words :=
  write ((grid 3 17 5).map fun (three, seventeen, k) =>
    (splitIndex three k seventeen,
      fold 0 ((List.range 5).map fun five => (matrix k five, src (splitIndex three five seventeen))))) dst

def radix3ToNatural (src : Nat → Region words) (matrix : Nat → Nat → Word) (dst : Nat → Region words) :
    Nat → Region words :=
  write ((grid 5 17 3).map fun (five, seventeen, k) =>
    (naturalIndex k five seventeen,
      fold 0 ((List.range 3).map fun three => (matrix k three, src (splitIndex three five seventeen))))) dst

def radix3FromNatural (src : Nat → Region words) (matrix : Nat → Nat → Word) (dst : Nat → Region words) :
    Nat → Region words :=
  write ((grid 5 17 3).map fun (five, seventeen, k) =>
    (splitIndex k five seventeen,
      fold 0 ((List.range 3).map fun three => (matrix k three, src (naturalIndex three five seventeen))))) dst

/-- The radix-17 stage back to the rows `start ..< start + live`, which read the convolution
at `conv - 1 - t`. -/
def radix17Inverse (src : Nat → Region words) (start live : Nat) (matrix : Nat → Nat → Word)
    (dst : Nat → Region words) : Nat → Region words :=
  write ((List.range live).map fun t =>
    let natural := conv - 1 - t
    (start + t, fold 0 ((List.range 17).map fun n =>
      (matrix (natural % 17) n, src (splitIndex (natural % 3) (natural % 5) n))))) dst

/-- The scratch buffer as a solve splits it, with its length in bytes. -/
structure Scratch (words : Nat) where
  len : Nat
  correlation : Nat → Region words
  spectra : Nat → Nat → Region words
  accumulator : Nat → Region words
  firstArena : Nat → Region words
  secondArena : Nat → Region words
  buckets : Nat → Region words

/-- The forward transform of one segment. -/
def ConvolutionPlan.transformSegment (plan : ConvolutionPlan) (rows : Nat) (syndromes : Nat → Region words)
    (scratch : Scratch words) (segment : Nat) : Scratch words :=
  let start := segment * block
  let live := min block (rows - start)
  let first := radix17Forward syndromes start live (plan.forward 17) scratch.firstArena
  let second := radix5 first (plan.forward 5) scratch.secondArena
  { scratch with
    firstArena := first
    secondArena := second
    spectra := Function.update scratch.spectra segment
      (radix3ToNatural second (plan.forward 3) (scratch.spectra segment)) }

/-- The spectral accumulate and the inverse transform of one output segment. -/
def ConvolutionPlan.outputSegment (plan : ConvolutionPlan) (rows : Nat) (scratch : Scratch words) (segment : Nat) :
    Scratch words :=
  let pairs := plan.segments - segment
  let accumulator := write ((List.range conv).map fun point =>
    (point, fold 0 ((List.range pairs).map fun input =>
      (plan.kernel (segment + input) point, scratch.spectra input point)))) scratch.accumulator
  let first := radix3FromNatural accumulator (plan.inverse 3) scratch.firstArena
  let second := radix5 first (plan.inverse 5) scratch.secondArena
  let start := segment * block
  let live := min block (rows - start)
  { scratch with
    accumulator := accumulator
    firstArena := first
    secondArena := second
    correlation := radix17Inverse second start live (plan.inverse 17) scratch.correlation }

def ConvolutionPlan.correlate (plan : ConvolutionPlan) (rows : Nat) (syndromes : Nat → Region words)
    (scratch : Scratch words) : Scratch words :=
  (List.range plan.segments).foldl (plan.outputSegment rows)
    ((List.range plan.segments).foldl (plan.transformSegment rows syndromes) scratch)

namespace ConsecutiveSolvePlan

/-- Stage 1 written out: row `t` folds the locator window `p[t + 1 ..= rows]`. -/
def correlate (plan : ConsecutiveSolvePlan) (syndromes : Nat → Region words) (scratch : Scratch words) :
    Scratch words :=
  { scratch with
    correlation := write ((List.range plan.rows).map fun t =>
      (t, fold 0 ((List.range (plan.rows - t)).map fun r => (plan.locator (t + 1 + r), syndromes r))))
      scratch.correlation }

/-- Pairs each source with the next step of a power ladder. -/
def ladderTerms (g : Word) : Word → List (Region words) → List (Word × Region words)
  | _, [] => []
  | ladder, source :: rest => (ladder, source) :: ladderTerms g (Gf.mul ladder g) rest

/-- Stage 2 written out: one power ladder for each unknown. -/
def evaluateDirect (plan : ConsecutiveSolvePlan) (correlation rows : Nat → Region words) : Nat → Region words :=
  write ((List.range plan.rows).map fun c =>
    (c, fold 0 (ladderTerms (plan.constants.getD c 0) (plan.scale.getD c 0)
      ((List.range plan.rows).map correlation)))) rows

/-- Bucket `j` gathers every row `t` with `t = j` modulo 257. -/
def fillBuckets (plan : ConsecutiveSolvePlan) (grouped : GroupedEval) (group : EvalGroup)
    (correlation buckets : Nat → Region words) : Nat → Region words :=
  write ((List.range large).map fun j =>
    (j, fold 0 ((List.range' j ((plan.rows - j + (large - 1)) / large) large).map fun scan =>
      (grouped.alpha (group.small * (scan % small) % small), correlation scan)))) buckets

/-- Stage 2 by residue groups: the unknowns of one group share the buckets. -/
def evaluateGrouped (plan : ConsecutiveSolvePlan) (grouped : GroupedEval) (correlation : Nat → Region words)
    (state : (Nat → Region words) × (Nat → Region words)) (group : EvalGroup) :
    (Nat → Region words) × (Nat → Region words) :=
  let buckets := plan.fillBuckets grouped group correlation state.2
  (write (group.members.map fun member =>
    (member.1, fold 0 ((List.range large).map fun j =>
      (Gf.mul (plan.scale.getD member.1 0) (grouped.beta (member.2 * j % large)), buckets j)))) state.1, buckets)

/-- Scratch rows of one stripe each. -/
def scratchRows (plan : ConsecutiveSolvePlan) : Nat :=
  let stage1 := plan.convolution.elim 0 fun convolution => (convolution.segments + 3) * conv
  let buckets := if plan.grouped.isSome then large else 0
  plan.rows + stage1 + buckets

def scratchBytes (plan : ConsecutiveSolvePlan) (stripeLen : Nat) : Nat := plan.scratchRows * stripeLen

/-- How often a solve polls for cancellation: once for each segment or output row of a stage. -/
def polls (plan : ConsecutiveSolvePlan) : Nat :=
  let stage1 := plan.convolution.elim plan.rows fun convolution => convolution.segments + convolution.segments
  let stage2 := plan.grouped.elim plan.rows fun grouped =>
    (grouped.groups.map fun group => large + group.members.length).sum
  stage1 + stage2

/-- Solves one stripe in place. The list holds the rows of the stripe, `2 * words` bytes
each, and `cancelled k` is the answer to poll `k`. -/
def solveStripe (plan : ConsecutiveSolvePlan) (rows : List (Region words)) (scratch : Scratch words)
    (cancelled : Nat → Bool) : Except SolveError (List (Region words)) :=
  let stripeLen := 2 * words
  if rows.length * stripeLen ≠ plan.rows * stripeLen ∨ scratch.len < plan.scratchBytes stripeLen then .error .geometry
  else if plan.rows = 0 ∨ stripeLen = 0 then .ok rows
  else if (List.range plan.polls).any cancelled then .error .cancelled
  else
    let buffer := fun r => rows.getD r 0
    let scratch := match plan.convolution with
      | some convolution => convolution.correlate plan.rows buffer scratch
      | none => plan.correlate buffer scratch
    let buffer := match plan.grouped with
      | some grouped =>
        (grouped.groups.foldl (plan.evaluateGrouped grouped scratch.correlation) (buffer, scratch.buckets)).1
      | none => plan.evaluateDirect scratch.correlation buffer
    .ok ((List.range plan.rows).map buffer)

end ConsecutiveSolvePlan
end Stripe
end VandermondeSolve
end Rarpar

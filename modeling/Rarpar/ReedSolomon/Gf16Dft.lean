import Rarpar.Data.Buffer
import Rarpar.Data.CountingSort
import Rarpar.Data.Ranking
import Rarpar.ReedSolomon.Region

namespace Rarpar
open Buffer GfSimd

/-- A transform rejected its geometry or observed cancellation. -/
inductive TransformError where
  | field
  | geometry
  | cancelled
deriving DecidableEq

namespace Gf16Dft

def logW257 : Nat := 255

def logW17 : Nat := 3855

def logW5 : Nat := 13107

def logW3 : Nat := 21845

/-- Rows of one 255-point sub-transform. -/
def pOrder : Nat := 255

/-- Cells in one `(g5, g3)` plane of the row layout. -/
def plane : Nat := 15

def maxBucketBatch : Nat := 8

def defaultBucketBatch : Nat := 4

def lineBatch : Nat := 16

def accumulateBatch : Nat := 16

/-- The marks of an unset rank. -/
def absentByte : Nat := 255

def absentWord : Nat := 65535

structure DftPlan where
  sourceCount : Nat
  firstExponent : Nat
  outputCount : Nat
  bucketBatch : Nat
  srcIndex : Nat → Nat
  srcU17 : Nat → Nat
  cellStart : Nat → Nat
  liveBuckets : List Nat
  liveLines : List Nat
  needG17 : List Nat
  needPairs : List (Nat × Nat)
  pairRank : Nat → Nat
  needTriples : List (Nat × Nat × Nat)
  outRow : List Nat
  outQ : List Nat
  tab17 : Nat → Nat → Word
  tab5 : Nat → Nat → Word
  tab3 : Nat → Nat → Word
  resultRows : Nat
  stageRows : Nat

def cellOf (exponent : Nat) : Nat := exponent % 257 * plane + exponent % 5 * 3 + exponent % 3

def g17Of (p : Nat) : Nat := 8 * (p % 17) % 17

def pOf (exponent : Nat) : Nat := 128 * (exponent % 255) % 255

def qOf (exponent : Nat) : Nat := 128 * (exponent % 257) % 257

/-- Line bits of the layout that share one `u3`. -/
def lineMaskForU3 (u3 : Nat) : Nat :=
  [1 ||| 1 <<< 3 ||| 1 <<< 6 ||| 1 <<< 9 ||| 1 <<< 12,
    1 <<< 1 ||| 1 <<< 4 ||| 1 <<< 7 ||| 1 <<< 10 ||| 1 <<< 13,
    1 <<< 2 ||| 1 <<< 5 ||| 1 <<< 8 ||| 1 <<< 11 ||| 1 <<< 14].getD u3 0

def rootTable (logRoot f k : Nat) : Word := Gf.powFromLog logRoot (f * k)

/-- The lines of bucket `v` that hold a source, as bits. -/
def lineMask (cellStart : Nat → Nat) (v : Nat) : Nat :=
  (List.range plane).foldl (fun mask line =>
    if cellStart (v * plane + line) < cellStart (v * plane + line + 1) then mask ||| 1 <<< line else mask) 0

/-- The buckets that hold a source, each with its lines. -/
def liveTable (cellStart : Nat → Nat) : List (Nat × Nat) :=
  ((List.range 257).map fun v => (v, lineMask cellStart v)).filter fun entry => entry.2 ≠ 0

def wantedP (exponents : List Nat) : Nat → Bool :=
  exponents.foldl (fun wanted exponent => Function.update wanted (pOf exponent) true) fun _ => false

/-- The orders of the sorted tables. -/
def pairLe (a b : Nat × Nat) : Bool := a.1 < b.1 || a.1 == b.1 && a.2 ≤ b.2

def tripleLe (a b : Nat × Nat × Nat) : Bool := a.1 < b.1 || a.1 == b.1 && pairLe a.2 b.2

def pairCode (pair : Nat × Nat) : Nat := pair.1 * 5 + pair.2

/-- The triple of one wanted `p`, by the rank of its `g17`. -/
def tripleOf (g17Rank : Nat → Nat) (p : Nat) : Nat × Nat × Nat := (g17Rank (g17Of p), p % 5, p % 3)

def rowOf (triple : Nat × Nat × Nat) : Nat := triple.1 * plane + triple.2.1 * 3 + triple.2.2

/-- The input side: the sources keyed by bucket, then by line within it. -/
def sourceEntries (slots : List Nat) : List (Nat × Nat × Nat) := slots.zipIdx.map fun (slot, source) =>
  (cellOf (slot % Gf.order), (source, slot % Gf.order % 17))

def cellStarts (slots : List Nat) : Nat → Nat :=
  CountingSort.starts ((sourceEntries slots).map Prod.fst) (257 * plane)

/-- The index and the residue modulo 17 of the source at each sorted position. -/
def sortedSources (slots : List Nat) : Nat → Nat × Nat :=
  (CountingSort.place (sourceEntries slots) (cellStarts slots) fun _ => (0, 0)).2

/-- The output side, pruned backwards from the wanted points. -/
def wantedPoints (start stop : Nat) : List Nat :=
  (List.range pOrder).filter fun p => wantedP (List.range' start (stop - start)) p

def g17Ranks (start stop : Nat) : (Nat → Nat) × List Nat :=
  Ranking.rank absentByte id (fun a b => decide (a ≤ b)) ((wantedPoints start stop).map g17Of)

def wantedTriples (start stop : Nat) : List (Nat × Nat × Nat) :=
  (wantedPoints start stop).map (tripleOf (g17Ranks start stop).1)

def pairRanks (start stop : Nat) : (Nat → Nat) × List (Nat × Nat) :=
  Ranking.rank absentWord pairCode pairLe ((wantedTriples start stop).map fun triple => (triple.1, triple.2.1))

def rowOfP (start stop p : Nat) : Nat :=
  if wantedP (List.range' start (stop - start)) p then rowOf (tripleOf (g17Ranks start stop).1 p) else 0

def buildTuned (slots : List Nat) (start stop bucketBatch : Nat) : Except TransformError DftPlan :=
  if bucketBatch = 0 ∨ maxBucketBatch < bucketBatch then .error .geometry
  else if Gf.order < stop then .error .geometry
  else
    let outputs := List.range' start (stop - start)
    .ok
      { sourceCount := slots.length
        firstExponent := start
        outputCount := outputs.length
        bucketBatch := bucketBatch
        srcIndex := fun at_ => (sortedSources slots at_).1
        srcU17 := fun at_ => (sortedSources slots at_).2
        cellStart := cellStarts slots
        liveBuckets := (liveTable (cellStarts slots)).map Prod.fst
        liveLines := (liveTable (cellStarts slots)).map Prod.snd
        needG17 := (g17Ranks start stop).2
        needPairs := (pairRanks start stop).2
        pairRank := (pairRanks start stop).1
        needTriples := (wantedTriples start stop).mergeSort tripleLe
        outRow := outputs.map fun exponent => rowOfP start stop (pOf exponent)
        outQ := outputs.map qOf
        tab17 := rootTable logW17
        tab5 := rootTable logW5
        tab3 := rootTable logW3
        resultRows := (g17Ranks start stop).2.length * plane
        stageRows := (pairRanks start stop).2.length * 3 }

def build (slots : List Nat) (start stop : Nat) : Except TransformError DftPlan :=
  buildTuned slots start stop defaultBucketBatch

/-- A stripe-major byte buffer with its length in bytes. -/
structure Arena (words : Nat) where
  len : Nat
  row : Nat → Region words

structure DftScratch (words : Nat) where
  stripeLen : Nat
  len : Nat
  results : Nat → Nat → Region words
  stage : Nat → Region words

namespace DftPlan
variable {words : Nat} (plan : DftPlan)

def resultBytes (stripeLen : Nat) : Nat := plan.resultRows * stripeLen

def stageBytes (stripeLen : Nat) : Nat := plan.stageRows * stripeLen

def scratchBytes (stripeLen : Nat) : Nat := (plan.bucketBatch * plan.resultRows + plan.stageRows) * stripeLen

/-- The length-17 leaf, which also scatters the sources of each live line. -/
def scatterLines (lines base : Nat) (sources result : Nat → Region words) : Nat → Region words :=
  write (((List.range plane).filter fun line => lines &&& 1 <<< line ≠ 0).flatMap fun line =>
    let start := plan.cellStart (base + line)
    let stop := plan.cellStart (base + line + 1)
    plan.needG17.zipIdx.map fun (g17, rank) =>
      (rank * plane + line, mulAccBatches lineBatch 0 ((List.range' start (stop - start)).map fun entry =>
        (plan.tab17 g17 (plan.srcU17 entry), sources (plan.srcIndex entry))))) result

/-- Length 5, along the middle axis. -/
def foldFives (lines : Nat) (result stage : Nat → Region words) : Nat → Region words :=
  write (plan.needPairs.zipIdx.flatMap fun ((rank, g5), pairAt) =>
    ((List.range 3).filter fun u3 => lines &&& lineMaskForU3 u3 ≠ 0).map fun u3 =>
      (pairAt * 3 + u3, mulAccInputBatch 0 (((List.range 5).filter fun u5 => lines &&& 1 <<< (u5 * 3 + u3) ≠ 0).map
        fun u5 => (plan.tab5 g5 u5, result (rank * plane + u5 * 3 + u3))))) stage

/-- Length 3, back into the result rows. -/
def foldThrees (lines : Nat) (stage result : Nat → Region words) : Nat → Region words :=
  write (plan.needTriples.map fun (rank, g5, g3) =>
    (rowOf (rank, g5, g3), mulAccInputBatch 0 (((List.range 3).filter fun u3 => lines &&& lineMaskForU3 u3 ≠ 0).map
      fun u3 => (plan.tab3 g3 u3, stage (plan.pairRank (pairCode (rank, g5)) * 3 + u3))))) result

/-- The 255-point pruned sub-transform of one bucket, with the stage it leaves behind. -/
def bucketTransform (bucket : Nat) (sources result stage : Nat → Region words) :
    (Nat → Region words) × (Nat → Region words) :=
  let base := plan.liveBuckets.getD bucket 0 * plane
  let lines := plan.liveLines.getD bucket 0
  let scattered := plan.scatterLines lines base sources result
  let staged := plan.foldFives lines scattered stage
  (plan.foldThrees lines staged scattered, staged)

def accumulateFactor (bucket out : Nat) : Word :=
  Gf.powFromLog logW257 (plan.outQ.getD out 0 * plan.liveBuckets.getD bucket 0)

/-- Folds a batch of finished buckets into every wanted output row. -/
def accumulate (from_ upto : Nat) (results : Nat → Nat → Region words) (outputs : List (Region words)) :
    List (Region words) :=
  outputs.mapIdx fun out dst => mulAccInputBatch dst ((List.range (upto - from_)).map fun slot =>
    (plan.accumulateFactor (from_ + slot) out, results slot (plan.outRow.getD out 0)))

/-- Transforms the buckets of one batch into the result slots. -/
def fillResults (sources : Nat → Region words) (from_ upto : Nat) (scratch : DftScratch words) : DftScratch words :=
  (List.range (upto - from_)).foldl (fun scratch slot =>
    let done := plan.bucketTransform (from_ + slot) sources (scratch.results slot) scratch.stage
    { scratch with results := Function.update scratch.results slot done.1, stage := done.2 }) scratch

def transformBatches (sources : Nat → Region words) (cancelled : Nat → Bool) :
    List Nat → DftScratch words → List (Region words) → Except TransformError Unit × List (Region words)
  | [], _, outputs => (.ok (), outputs)
  | batch :: rest, scratch, outputs =>
    if cancelled batch then (.error .cancelled, outputs)
    else
      let from_ := batch * plan.bucketBatch
      let upto := min (from_ + plan.bucketBatch) plan.liveBuckets.length
      let filled := plan.fillResults sources from_ upto scratch
      transformBatches sources cancelled rest filled (plan.accumulate from_ upto filled.results outputs)

/-- The stripe length that the sources give. -/
def stripeLenOf (sources : List (Region words)) : Nat := if sources = [] then 0 else 2 * words

/-- One stripe of every slice, accumulated into the output rows. The rows are returned
with the result: a rejected call leaves them alone, a cancelled one may not. -/
def transformStripe (sources outputs : List (Region words)) (scratch : DftScratch words) (cancelled : Nat → Bool) :
    Except TransformError Unit × List (Region words) :=
  let stripeLen := stripeLenOf sources
  if sources.length ≠ plan.sourceCount then (.error .geometry, outputs)
  else if outputs.length * (2 * words) ≠ plan.outputCount * stripeLen then (.error .geometry, outputs)
  else if scratch.stripeLen ≠ stripeLen ∨ scratch.len ≠ plan.scratchBytes stripeLen then (.error .geometry, outputs)
  else if stripeLen = 0 ∨ plan.outputCount = 0 ∨ plan.liveBuckets = [] then (.ok (), outputs)
  else
    plan.transformBatches (fun source => sources.getD source 0) cancelled
      (List.range ((plan.liveBuckets.length + (plan.bucketBatch - 1)) / plan.bucketBatch)) scratch outputs

/-- One bucket into one result slot, with a stage of the caller's. -/
def transformBucket (bucket : Nat) (sources : List (Region words)) (result stage : Arena words) :
    Except TransformError (Arena words × Arena words) :=
  let stripeLen := stripeLenOf sources
  if sources.length ≠ plan.sourceCount ∨ plan.liveBuckets.length ≤ bucket ∨
      result.len ≠ plan.resultBytes stripeLen ∨ stage.len < plan.stageBytes stripeLen then .error .geometry
  else if stripeLen = 0 then .ok (result, stage)
  else
    let done := plan.bucketTransform bucket (fun source => sources.getD source 0) result.row stage.row
    .ok ({ result with row := done.1 }, { stage with row := done.2 })

/-- Folds finished buckets into the output rows `first ..< last`, in groups of
`accumulateBatch`; `outputs` holds exactly those rows. -/
def accumulateBuckets (buckets : List (Nat × Arena words)) (first last : Nat) (outputs : List (Region words)) :
    Except TransformError (List (Region words)) :=
  if plan.outputCount < last ∨ last < first then .error .geometry
  else if last = first then
    if outputs.length * (2 * words) = 0 ∧ buckets = [] then .ok outputs else .error .geometry
  else if outputs.length * (2 * words) % (last - first) ≠ 0 then .error .geometry
  else
    let stripeLen := outputs.length * (2 * words) / (last - first)
    if stripeLen % 2 ≠ 0 ∨
        ∃ entry ∈ buckets, plan.liveBuckets.length ≤ entry.1 ∨ entry.2.len ≠ plan.resultBytes stripeLen then
      .error .geometry
    else if stripeLen = 0 ∨ buckets = [] then .ok outputs
    else
      .ok (outputs.mapIdx fun i dst => mulAccBatches accumulateBatch dst (buckets.map fun entry =>
        (plan.accumulateFactor entry.1 (first + i), entry.2.row (plan.outRow.getD (first + i) 0))))

end DftPlan

/-- The calls of workers that share one stripe: a bucket into a result slot with a stage,
or finished slots into a range of output rows. -/
inductive Call where
  | transform (bucket slot stage : Nat)
  | accumulate (buckets : List (Nat × Nat)) (first last : Nat)

/-- The buffers that the workers share. -/
structure Workspace (words : Nat) where
  slots : Nat → Arena words
  stages : Nat → Arena words
  outputs : List (Region words)

def runCall {words : Nat} (plan : DftPlan) (sources : List (Region words)) (work : Workspace words) :
    Call → Except TransformError (Workspace words)
  | .transform bucket slot stage => do
    let (result, staged) ← plan.transformBucket bucket sources (work.slots slot) (work.stages stage)
    return { work with
      slots := Function.update work.slots slot result
      stages := Function.update work.stages stage staged }
  | .accumulate buckets first last => do
    let rows ← plan.accumulateBuckets (buckets.map fun (bucket, slot) => (bucket, work.slots slot)) first last
      ((work.outputs.drop first).take (last - first))
    return { work with outputs := work.outputs.take first ++ rows ++ work.outputs.drop last }

def runCalls {words : Nat} (plan : DftPlan) (sources : List (Region words)) :
    List Call → Workspace words → Except TransformError (Workspace words)
  | [], work => .ok work
  | call :: rest, work => do
    let next ← runCall plan sources work call
    runCalls plan sources rest next

end Gf16Dft
end Rarpar

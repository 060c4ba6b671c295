import Rarpar.ReedSolomon.Region

namespace Rarpar
open GfSimd

namespace Region
variable {words : Nat}

/-- The stripe of `size` words that starts at word `index * size`, shorter at the
end of the region. -/
def chunk (size index : Nat) (region : Region words) : Region (min size (words - index * size)) where
  byte i b := region.byte ⟨index * size + i, by omega⟩ b

/-- The region whose stripes are the given pieces. -/
def gather {size : Nat} (positive : 0 < size) (piece : (index : Nat) → Region (min size (words - index * size))) :
    Region words where
  byte w b := (piece (w / size)).byte ⟨w % size, by
    have position := Nat.div_add_mod' w size
    have inside := Nat.mod_lt w positive
    omega⟩ b

theorem gather_chunk {size : Nat} (positive : 0 < size) (region : Region words) :
    gather positive (fun index => region.chunk size index) = region := by
  ext w b : 3
  simp only [gather, chunk, Nat.div_add_mod']

/-- Stripes are taken wordwise, so they commute with sums and factors. -/
def chunkMap (size index : Nat) : Region words →ₗ[Word] Region (min size (words - index * size)) where
  toFun := chunk size index
  map_add' _ _ := rfl
  map_smul' _ _ := rfl

end Region

namespace DecodeApply

def minStripe : Nat := 16 * 1024
def maxStripe : Nat := 256 * 1024
def fallbackGroup : Nat := 8

/-- Stripe length in bytes for `len`-byte regions and `rows` outputs. -/
def stripeLen (threads len rows : Nat) : Nat :=
  let wantedTasks := threads * 4
  let stripesPerRow := max ((wantedTasks + (max rows 1 - 1)) / max rows 1) 1
  let stripe := (len + (stripesPerRow - 1)) / stripesPerRow
  (min (max stripe minStripe) maxStripe + 63) / 64 * 64

theorem stripeLen_pos (threads len rows : Nat) : 0 < stripeLen threads len rows / 2 := by
  simp only [stripeLen, minStripe, maxStripe]
  omega

variable {words : Nat}

/-- The loop of one task: nonzero factors collect in a batch, which is flushed
whenever it is full and once more at the end. -/
def accumulateBatches (group : Nat) :
    List (Word × Region words) → List (Word × Region words) → Region words → Region words
  | [], batch, dst => if batch.isEmpty then dst else mulAccInputBatch dst batch
  | (factor, src) :: rest, batch, dst =>
    if factor = 0 then accumulateBatches group rest batch dst
    else if (batch ++ [(factor, src)]).length = group then
      accumulateBatches group rest [] (mulAccInputBatch dst (batch ++ [(factor, src)]))
    else accumulateBatches group rest (batch ++ [(factor, src)]) dst

theorem accumulateBatches_eq (group : Nat) (entries batch : List (Word × Region words)) (dst : Region words) :
    accumulateBatches group entries batch dst =
      dst + (batch.map fun entry => entry.1 • entry.2).sum +
        (entries.map fun entry => entry.1 • entry.2).sum := by
  induction entries generalizing batch dst with
  | nil =>
    rw [accumulateBatches]
    split_ifs with empty
    · simp [List.isEmpty_iff.mp empty]
    · simp [mulAccInputBatch_eq]
  | cons entry rest ih =>
    rw [accumulateBatches]
    split
    · rename_i zero
      simp [ih, zero]
    · split
      · simp [ih, mulAccInputBatch_eq, add_assoc]
      · simp [ih, add_assoc]

/-- The task of one output row and one stripe, on a destination filled with zeros. -/
def stripeTask {columns : Nat} (group : Nat) (coefficients : Fin columns → Word)
    (inputs : Fin columns → Region words) : Region words :=
  accumulateBatches group ((List.finRange columns).map fun j => (coefficients j, inputs j)) [] 0

theorem stripeTask_eq {columns : Nat} (group : Nat) (coefficients : Fin columns → Word)
    (inputs : Fin columns → Region words) :
    stripeTask group coefficients inputs = ∑ j, coefficients j • inputs j := by
  rw [stripeTask, accumulateBatches_eq, List.map_map, ← List.sum_ofFn, List.ofFn_eq_map]
  simp [Function.comp_def]

/-- Every output row is overwritten stripe by stripe. `width` is the batch width
the host kernel reports. -/
def applyDecodeMatrixGf16 {rows columns : Nat} (threads width : Nat) (matrix : Fin rows → Fin columns → Word)
    (inputs : Fin columns → Region words) (outputs : Fin rows → Region words) : Fin rows → Region words :=
  if words = 0 then outputs
  else
    let group := if width = 1 then fallbackGroup else width
    fun row => .gather (stripeLen_pos threads (2 * words) rows) fun index =>
      stripeTask group (matrix row) fun j => (inputs j).chunk _ index

/-- The stripes, the thread count and the batch width leave no trace in the
result, and neither do the previous outputs. -/
theorem applyDecodeMatrixGf16_eq {rows columns : Nat} (threads width : Nat)
    (matrix : Fin rows → Fin columns → Word) (inputs : Fin columns → Region words)
    (outputs : Fin rows → Region words) (row : Fin rows) :
    applyDecodeMatrixGf16 threads width matrix inputs outputs row = ∑ j, matrix row j • inputs j := by
  unfold applyDecodeMatrixGf16
  split
  · rename_i empty
    subst empty
    ext i
    exact i.elim0
  · rw [← Region.gather_chunk _ (∑ j, matrix row j • inputs j)]
    refine congrArg (Region.gather _) (funext fun index => ?_)
    rw [stripeTask_eq]
    change _ = Region.chunkMap _ index (∑ j, matrix row j • inputs j)
    rw [map_sum]
    rfl

end DecodeApply
end Rarpar

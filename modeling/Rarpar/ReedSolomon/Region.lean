import Rarpar.ReedSolomon.Gf

namespace Rarpar
open List

/-- A byte region of even length. The byte at offset `2 * i + b` is `byte i b`. -/
@[ext] structure Region (words : Nat) where
  byte : Fin words → Fin 2 → BitVec 8
deriving DecidableEq

namespace Region
variable {words : Nat}

/-- The little-endian word at index `i`. -/
def word (region : Region words) (i : Fin words) : Word := ⟨region.byte i 1 ++ region.byte i 0⟩

/-- The region that stores each word little endian. -/
def ofWords (values : Fin words → Word) : Region words where
  byte i b := (values i).bits.extractLsb' (8 * b) 8

@[simp] theorem word_ofWords (values : Fin words → Word) : (ofWords values).word = values := by
  funext i
  apply GfSymbol.ext
  change (values i).bits.extractLsb' 8 8 ++ (values i).bits.extractLsb' 0 8 = (values i).bits
  rw [BitVec.extractLsb'_append_extractLsb'_eq_extractLsb' (by rfl)]
  simp

@[simp] theorem ofWords_word (region : Region words) : ofWords region.word = region := by
  ext i b : 3
  match b with
  | 0 => exact BitVec.extractLsb'_append_eq_right
  | 1 => exact BitVec.extractLsb'_append_eq_left

theorem word_injective : Function.Injective (word : Region words → Fin words → Word) :=
  Function.LeftInverse.injective ofWords_word

instance : Zero (Region words) := ⟨⟨fun _ _ => 0⟩⟩
instance : Add (Region words) := ⟨fun a b => ⟨fun i j => a.byte i j ^^^ b.byte i j⟩⟩
instance : Neg (Region words) := ⟨id⟩
instance : SMul Word (Region words) := ⟨fun factor region => ofWords fun i => factor * region.word i⟩

@[simp] theorem word_zero : (0 : Region words).word = 0 := by
  funext i
  apply GfSymbol.ext
  change HAppend.hAppend (0 : BitVec 8) (0 : BitVec 8) = 0
  decide

@[simp] theorem word_add (a b : Region words) : (a + b).word = a.word + b.word := by
  funext i
  exact GfSymbol.ext BitVec.xor_append.symm

@[simp] theorem word_smul (factor : Word) (region : Region words) :
    (factor • region).word = factor • region.word := word_ofWords _

instance : AddCommGroup (Region words) where
  add_assoc a b c := word_injective (by simp only [word_add, add_assoc])
  zero_add a := word_injective (by simp only [word_add, word_zero, zero_add])
  add_zero a := word_injective (by simp only [word_add, word_zero, add_zero])
  add_comm a b := word_injective (by simp only [word_add, add_comm])
  neg_add_cancel a := word_injective (by
    rw [word_add, word_zero]
    exact funext fun i => CharTwo.add_self_eq_zero (a.word i))
  nsmul := nsmulRec
  zsmul := zsmulRec

/-- Bytewise exclusive or and multiplication of every word by one factor make the
regions of one length a vector space. -/
instance : Module Word (Region words) :=
  word_injective.module Word ⟨⟨word, word_zero⟩, word_add⟩ word_smul

def wordMap (i : Fin words) : Region words →ₗ[Word] Word where
  toFun region := region.word i
  map_add' a b := congrFun (word_add a b) i
  map_smul' factor region := congrFun (word_smul factor region) i

theorem sum_smul_word {ι : Type*} (s : Finset ι) (factor : ι → Word) (unit : ι → Region words) (i : Fin words) :
    (∑ d ∈ s, factor d • unit d).word i = ∑ d ∈ s, factor d * (unit d).word i := by
  change wordMap i _ = _
  rw [map_sum]
  simp only [map_smul]
  rfl

end Region

namespace GfSimd
variable {words : Nat}

/-- The scalar kernel, one word at a time. -/
def mulAccRegionScalar (factor : Word) (src dst : Region words) : Region words :=
  .ofWords fun w => dst.word w + Gf.mul (src.word w) factor

/-- The public entry: a zero factor changes nothing, and a factor of one is the
bytewise exclusive or. -/
def mulAccRegion (factor : Word) (src dst : Region words) : Region words :=
  if factor = 0 ∨ words = 0 then dst
  else if factor = 1 then ⟨fun i b => dst.byte i b ^^^ src.byte i b⟩
  else mulAccRegionScalar factor src dst

theorem mulAccRegionScalar_eq (factor : Word) (src dst : Region words) :
    mulAccRegionScalar factor src dst = dst + factor • src := by
  apply Region.word_injective
  rw [mulAccRegionScalar, Region.word_ofWords, Region.word_add, Region.word_smul]
  funext w
  rw [Gf.mul_eq, mul_comm]
  rfl

theorem mulAccRegion_eq (factor : Word) (src dst : Region words) :
    mulAccRegion factor src dst = dst + factor • src := by
  unfold mulAccRegion
  split
  · rename_i skipped
    rcases skipped with rfl | rfl
    · rw [zero_smul, add_zero]
    · ext i
      exact i.elim0
  · split_ifs with one
    · rw [one, one_smul]
      rfl
    · exact mulAccRegionScalar_eq factor src dst

/-- A prepared batch: each source is accumulated in turn. -/
def mulAccInputBatch (dst : Region words) (batch : List (Word × Region words)) : Region words :=
  batch.foldl (fun dst entry => mulAccRegion entry.1 entry.2 dst) dst

theorem mulAccInputBatch_eq (dst : Region words) (batch : List (Word × Region words)) :
    mulAccInputBatch dst batch = dst + (batch.map fun entry => entry.1 • entry.2).sum := by
  induction batch generalizing dst with
  | nil => simp [mulAccInputBatch]
  | cons entry rest ih =>
    have tail := ih (mulAccRegion entry.1 entry.2 dst)
    rw [mulAccInputBatch] at tail
    rw [mulAccInputBatch, foldl_cons, tail, mulAccRegion_eq, map_cons, sum_cons, add_assoc]

/-- Accumulates the products in batches of `size`. -/
def mulAccBatches (size : Nat) (dst : Region words) (terms : List (Word × Region words)) : Region words :=
  match terms with
  | [] => dst
  | first :: rest =>
    mulAccBatches size (mulAccInputBatch dst (first :: rest.take (size - 1))) (rest.drop (size - 1))
termination_by terms.length
decreasing_by
  rw [List.length_drop, List.length_cons]
  omega

theorem mulAccBatches_eq (size : Nat) (dst : Region words) (terms : List (Word × Region words)) :
    mulAccBatches size dst terms = dst + (terms.map fun term => term.1 • term.2).sum := by
  fun_induction mulAccBatches size dst terms with
  | case1 dst => simp
  | case2 dst first rest ih =>
    rw [ih, mulAccInputBatch_eq, add_assoc, ← sum_append, ← map_append, cons_append,
      take_append_drop]

end GfSimd
end Rarpar

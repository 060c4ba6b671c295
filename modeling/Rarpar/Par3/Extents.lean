import Rarpar.Data.Ranges
import Rarpar.Par3.PacketHeader

namespace Rarpar.Par3
open List

/-! The extents of a protected file, as the list that the lookups of its run-compact form answer for. -/

inductive ExtentKind
  | block (index offset : Nat) (fingerprint : Option Fingerprint) (rollingHash : Option Nat)
  | inlineBytes (bytes : List UInt8)
  | unprotected
deriving DecidableEq

/-- A contiguous region in file coordinates, from `start` up to `stop`. -/
structure FileExtent where
  start : Nat
  stop : Nat
  kind : ExtentKind
deriving DecidableEq

namespace FileExtent

def isUnprotected (extent : FileExtent) : Bool := extent.kind = .unprotected

/-- The fingerprint that the bytes of an extent are held against. -/
def expected (fingerprint : Hash) (extent : FileExtent) : Option Fingerprint :=
  match extent.kind with
  | .block _ _ expected _ => expected
  | .inlineBytes bytes => some (fingerprint bytes)
  | .unprotected => none

theorem expected_unprotected {fingerprint : Hash} {extent : FileExtent} (unprotected : extent.isUnprotected = true) :
    extent.expected fingerprint = none := by
  rw [expected, of_decide_eq_true unprotected]

/-- The bytes of an extent, as far as the content goes. -/
def bytes (content : List UInt8) (extent : FileExtent) : List UInt8 := Ranges.slice extent.start extent.stop content

end FileExtent

/-- Each extent begins where the one before it ended, and the last ends at `len`. -/
def Tiles (len : Nat) : Nat → List FileExtent → Prop
  | start, [] => start = len
  | start, extent :: rest => extent.start = start ∧ start ≤ extent.stop ∧ Tiles len extent.stop rest

/-- A file's extents tile it, and only an unprotected one may be empty. -/
structure ListedFile where
  fingerprint : Fingerprint
  len : Nat
  extents : List FileExtent
  tiles : Tiles len 0 extents
  long : ∀ extent ∈ extents, extent.isUnprotected = false → extent.start < extent.stop

namespace ListedFile
variable (file : ListedFile)

/-- The index of the first extent that ends after `offset`. -/
def firstAfter (offset : Nat) : Nat := (file.extents.takeWhile fun extent => extent.stop ≤ offset).length

/-- Every extent that ends after `start` and begins before `stop` is unprotected. -/
def allUnprotected (start stop : Nat) : Bool :=
  stop ≤ start || file.extents.all fun extent => extent.stop ≤ start || stop ≤ extent.start || extent.isUnprotected

def unprotectedBetween (start stop : Nat) : Bool := start ≤ stop && stop ≤ file.len && file.allUnprotected start stop

/-- The byte is one of a protected extent. -/
def protects (p : Nat) : Bool := file.extents.any fun extent => !extent.isUnprotected && extent.start ≤ p && p < extent.stop

/-- The protected bytes from `start` up to `stop`. -/
def protectedBytes (content : List UInt8) (start stop : Nat) : List UInt8 :=
  ((List.range' start (stop - start)).filter file.protects).filterMap (content[·]?)

end ListedFile

/-! ### Tilings -/

section
variable {len start : Nat} {extents : List FileExtent} (tiles : Tiles len start extents)
include tiles

theorem Tiles.stop_le :
    start ≤ len ∧ ∀ extent ∈ extents, start ≤ extent.start ∧ extent.start ≤ extent.stop ∧ extent.stop ≤ len := by
  induction extents generalizing start with
  | nil => exact ⟨tiles.le, nofun⟩
  | cons extent rest ih =>
    obtain ⟨same, long, tiles⟩ := tiles
    obtain ⟨inside, others⟩ := ih tiles
    refine ⟨long.trans inside, fun other member => ?_⟩
    rcases mem_cons.mp member with rfl | member
    · exact ⟨same.ge, same.trans_le long, inside⟩
    · obtain ⟨first, order, last⟩ := others other member
      exact ⟨long.trans first, order, last⟩

theorem Tiles.pairwise : extents.Pairwise fun extent later => extent.stop ≤ later.start := by
  induction extents generalizing start with
  | nil => exact .nil
  | cons extent rest ih =>
    obtain ⟨-, -, tiles⟩ := tiles
    exact pairwise_cons.mpr ⟨fun later member => (tiles.stop_le.2 later member).1, ih tiles⟩

end

namespace ListedFile
variable {file : ListedFile} {extent : FileExtent} {start stop p : Nat} {content : List UInt8}

theorem protects_iff : file.protects p ↔ ∃ extent ∈ file.extents, extent.isUnprotected = false ∧ extent.start ≤ p ∧ p < extent.stop := by
  simp only [protects, any_eq_true, Bool.and_eq_true, Bool.not_eq_true', decide_eq_true_eq, and_assoc]

/-- The extent of a byte decides whether it is protected. -/
theorem protects_eq (member : extent ∈ file.extents) (first : extent.start ≤ p) (last : p < extent.stop) :
    file.protects p = !extent.isUnprotected := by
  cases kind : extent.isUnprotected with
  | false => exact protects_iff.mpr ⟨extent, member, kind, first, last⟩
  | true =>
    refine Bool.eq_false_iff.mpr fun protects => ?_
    obtain ⟨other, member', kind', first', last'⟩ := protects_iff.mp protects
    have apart := file.tiles.pairwise
    by_cases same : extent = other
    · subst same
      exact absurd (kind.symm.trans kind') nofun
    · have symm : Std.Symm fun extent later : FileExtent => extent.stop ≤ later.start ∨ later.stop ≤ extent.start := ⟨fun _ _ => Or.symm⟩
      have either := (apart.imp fun {a b} before => (Or.inl before : a.stop ≤ b.start ∨ b.stop ≤ a.start)).forall member member' same
      omega

theorem allUnprotected_iff : file.allUnprotected start stop ↔ ∀ p, start ≤ p → p < stop → file.protects p = false := by
  simp only [allUnprotected, Bool.or_eq_true, decide_eq_true_eq, all_eq_true]
  constructor
  · rintro all p first last
    refine Bool.eq_false_iff.mpr fun protects => ?_
    obtain ⟨extent, member, kind, first', last'⟩ := protects_iff.mp protects
    rcases all with empty | all
    · omega
    · rcases all extent member with (before | after) | unprotected
      · omega
      · omega
      · exact absurd (kind.symm.trans unprotected) nofun
  · intro none
    refine or_iff_not_imp_left.mpr fun nonempty extent member => ?_
    by_cases kind : extent.isUnprotected
    · exact .inr kind
    · have long := file.long extent member (Bool.eq_false_iff.mpr kind)
      by_contra meets
      have free := none (max start extent.start) (Nat.le_max_left ..) (by omega)
      rw [protects_eq member (Nat.le_max_right ..) (by omega)] at free
      simp [kind] at free

theorem unprotectedBetween_iff : file.unprotectedBetween start stop ↔
    start ≤ stop ∧ stop ≤ file.len ∧ ∀ p, start ≤ p → p < stop → file.protects p = false := by
  rw [unprotectedBetween, Bool.and_eq_true, Bool.and_eq_true, decide_eq_true_eq, decide_eq_true_eq, allUnprotected_iff, and_assoc]

/-! ### Protected bytes -/

theorem protectedBytes_append {middle : Nat} (first : start ≤ middle) (second : middle ≤ stop) :
    file.protectedBytes content start stop = file.protectedBytes content start middle ++ file.protectedBytes content middle stop := by
  have whole : range' start (stop - start) = range' start (middle - start) ++ range' middle (stop - middle) := by
    rw [show stop - start = (middle - start) + (stop - middle) by omega, ← range'_append_1, Nat.add_sub_cancel' first]
  rw [protectedBytes, whole, filter_append, filterMap_append]
  rfl

theorem protectedBytes_eq_nil (none : ∀ p, start ≤ p → p < stop → file.protects p = false) : file.protectedBytes content start stop = [] := by
  have filtered : (range' start (stop - start)).filter file.protects = [] := by
    refine filter_eq_nil_iff.mpr fun p member => ?_
    rw [mem_range'_1] at member
    rw [none p member.1 (by omega)]
    exact Bool.false_ne_true
  rw [protectedBytes, filtered, filterMap_nil]

theorem protectedBytes_eq_slice (all : ∀ p, start ≤ p → p < stop → file.protects p = true) :
    file.protectedBytes content start stop = Ranges.slice start stop content := by
  have filtered : (range' start (stop - start)).filter file.protects = range' start (stop - start) := by
    refine filter_eq_self.mpr fun p member => ?_
    rw [mem_range'_1] at member
    exact all p member.1 (by omega)
  rw [protectedBytes, filtered]
  exact Ranges.filterMap_range' content start _

end ListedFile
end Rarpar.Par3

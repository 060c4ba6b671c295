import Mathlib.Data.List.TakeWhile
import Rarpar.Par3.VerifierSteps

namespace Rarpar.Par3
open List Nat Ranges

/-! What a read of the true content does. -/

/-- A part of a part of the string. -/
theorem part_slice {data piece : List UInt8} {start first last : Nat} (part : Frontier.Part data start piece) (before : start ≤ first)
    (inside : last ≤ start + piece.length) : slice (first - start) (last - start) piece = slice first last data := by
  have whole : piece = (data.drop start).take piece.length := by
    have same := part.same
    rwa [slice, Nat.add_sub_cancel_left] at same
  rw [slice, slice, whole, drop_take, take_take, drop_drop, Nat.add_sub_cancel' before]
  congr 1
  omega

namespace StreamingVerifier

open ListedFile

variable {source : VerifierSource} {verifier : StreamingVerifier} {content bytes whole : List UInt8} {offset first last : Nat}
  {run : Option (Nat × Nat)}

/-! ### The whole file -/

/-- An open run lies within the read. -/
def Within (offset : Nat) (bytes : List UInt8) (run : Option (Nat × Nat)) : Prop :=
  ∀ range, run = some range → offset ≤ range.1 ∧ range.1 ≤ range.2 ∧ range.2 ≤ offset + bytes.length

theorem within_none : Within offset bytes none := nofun

/-- However the runs are cut, the same bytes are hashed. -/
theorem closeRun_trackRun (whole : List UInt8) (unprotected : Bool) (within : Within offset bytes run) (before : offset ≤ first) (order : first ≤ last)
    (inside : last ≤ offset + bytes.length) :
    closeRun offset bytes (trackRun offset bytes unprotected first last (whole, run)) =
        closeRun offset bytes (whole, run) ++ (if unprotected then [] else slice (first - offset) (last - offset) bytes) ∧
      Within offset bytes (trackRun offset bytes unprotected first last (whole, run)).2 := by
  cases run with
  | none =>
    cases unprotected with
    | true => exact ⟨(append_nil _).symm, within_none⟩
    | false =>
      refine ⟨rfl, fun range same => ?_⟩
      cases same
      exact ⟨before, order, inside⟩
  | some range =>
    obtain ⟨start, ordered, stop⟩ := within range rfl
    cases unprotected with
    | true => exact ⟨(append_nil _).symm, within_none⟩
    | false =>
      rw [trackRun, if_neg Bool.false_ne_true, if_neg Bool.false_ne_true]
      split_ifs with joins
      · refine ⟨?_, fun range' same => ?_⟩
        · rw [closeRun, closeRun, append_assoc, joins, ← slice_append (by omega) (by omega)]
        · cases same
          exact ⟨start, by omega, inside⟩
      · refine ⟨rfl, fun range' same => ?_⟩
        cases same
        exact ⟨before, order, inside⟩

variable {file : ListedFile}

/-- The protected bytes of a read, extent by extent. -/
theorem protectedBytes_step {extent : FileExtent} {stop : Nat} (member : extent ∈ file.extents) (reach : offset ≤ extent.stop)
    (order : extent.start ≤ extent.stop) (begins : extent.start < stop) (forward : offset ≤ stop) :
    file.protectedBytes content (max extent.start offset) stop =
      (if extent.isUnprotected then [] else slice (max extent.start offset) (min extent.stop stop) content) ++
        file.protectedBytes content (max extent.stop offset) stop := by
  have here : file.protectedBytes content (max extent.start offset) (min extent.stop stop) =
      if extent.isUnprotected then [] else slice (max extent.start offset) (min extent.stop stop) content := by
    have decided (p : Nat) (first : max extent.start offset ≤ p) (last : p < min extent.stop stop) :
        file.protects p = !extent.isUnprotected := protects_eq member (by omega) (by omega)
    cases kind : extent.isUnprotected with
    | true => exact protectedBytes_eq_nil fun p first last => by rw [decided p first last, kind]; rfl
    | false => exact protectedBytes_eq_slice fun p first last => by rw [decided p first last, kind]; rfl
  rw [protectedBytes_append (show max extent.start offset ≤ min extent.stop stop by omega) (min_le_right _ _), here]
  congr 1
  rcases le_total extent.stop stop with short | long
  · rw [min_eq_left short, max_eq_left reach]
  · rw [Nat.min_eq_right long, protectedBytes, protectedBytes, Nat.sub_self, show stop - max extent.stop offset = 0 by omega]
    rfl

variable {extents : List FileExtent}

/-- A read hashes its protected bytes. -/
theorem wholeLoop_eq (part : Frontier.Part content offset bytes) {start : Nat}
    (tiles : Tiles file.len start extents) (members : ∀ extent ∈ extents, extent ∈ file.extents ∧ offset ≤ extent.stop)
    (within : Within offset bytes run) :
    wholeLoop offset bytes extents (whole, run) =
      closeRun offset bytes (whole, run) ++ file.protectedBytes content (max start offset) (offset + bytes.length) := by
  induction extents generalizing start whole run with
  | nil =>
    have beyond : file.protectedBytes content (max start offset) (offset + bytes.length) = [] := by
      refine protectedBytes_eq_nil fun p first _ => Bool.eq_false_iff.mpr fun protects => ?_
      obtain ⟨extent, member, -, -, last⟩ := protects_iff.mp protects
      have inside := (file.tiles.stop_le.2 extent member).2.2
      have same : start = file.len := tiles
      omega
    rw [wholeLoop, beyond, append_nil]
  | cons extent rest ih =>
    obtain ⟨same, order, tiles⟩ := tiles
    obtain ⟨member, reach⟩ := members extent mem_cons_self
    subst same
    rw [wholeLoop]
    split_ifs with beyond
    · have none : file.protectedBytes content (max extent.start offset) (offset + bytes.length) = [] :=
        protectedBytes_eq_nil fun p first last => by omega
      rw [none, append_nil]
    · have begins := not_le.mp beyond
      obtain ⟨closed, within'⟩ := closeRun_trackRun whole extent.isUnprotected within
        (le_max_right extent.start offset) (show max extent.start offset ≤ min extent.stop _ by omega)
        (min_le_right _ _)
      rw [ih tiles (fun other inside => members other (mem_cons_of_mem extent inside)) within', closed,
        protectedBytes_step member reach order begins (le_add_right _ _), append_assoc,
        part_slice part (le_max_right _ _) (min_le_right _ _)]

/-! ### A read -/

theorem drop_takeWhile {α : Type} (p : α → Bool) (items : List α) : items.drop (items.takeWhile p).length = items.dropWhile p := by
  have whole := congrArg (drop (items.takeWhile p).length) (items.takeWhile_append_dropWhile (p := p))
  rw [drop_left] at whole
  exact whole.symm

/-- The extents that end after an offset tile the file from there or from before. -/
theorem tiles_after {len start : Nat} (tiles : Tiles len start extents) (before : start ≤ offset) :
    ∃ start' ≤ offset, Tiles len start' (extents.dropWhile fun extent => extent.stop ≤ offset) := by
  induction extents generalizing start with
  | nil => exact ⟨start, before, tiles⟩
  | cons extent rest ih =>
    rw [dropWhile_cons]
    split_ifs with ended
    · exact ih tiles.2.2 (of_decide_eq_true ended)
    · exact ⟨start, before, tiles⟩

theorem mem_after {len start : Nat} (tiles : Tiles len start extents) :
    ∀ extent ∈ extents.dropWhile (fun extent => extent.stop ≤ offset), offset < extent.stop := by
  induction extents generalizing start with
  | nil => nofun
  | cons first rest ih =>
    rw [dropWhile_cons]
    split_ifs with ended
    · exact ih tiles.2.2
    · intro extent member
      have late := not_le.mp fun early => ended (decide_eq_true early)
      rcases mem_cons.mp member with rfl | later
      · exact late
      · have inside := tiles.2.2.stop_le.2 extent later
        omega

theorem mem_drop_zipIdx {α : Type} {items : List α} {item : α} {count index : Nat} :
    (item, index) ∈ items.zipIdx.drop count ↔ count ≤ index ∧ items[index]? = some item := by
  rw [mem_iff_getElem?]
  simp only [getElem?_drop, getElem?_zipIdx, Option.map_eq_some_iff, Prod.mk.injEq, zero_add]
  constructor
  · rintro ⟨k, item', found, rfl, rfl⟩
    exact ⟨Nat.le_add_right .., found⟩
  · rintro ⟨late, found⟩
    refine ⟨index - count, item, ?_, rfl, Nat.add_sub_cancel' late⟩
    rw [Nat.add_sub_cancel' late]
    exact found

/-- The extents that the loop of a read goes through, with their indices. -/
theorem mem_entries {extent : FileExtent} {index : Nat} :
    (extent, index) ∈ file.extents.zipIdx.drop (file.firstAfter offset) ↔ file.extents[index]? = some extent ∧ offset < extent.stop := by
  rw [mem_drop_zipIdx, and_comm]
  refine and_congr_right fun found => ⟨fun late => ?_, fun ends => ?_⟩
  · refine mem_after file.tiles extent ?_
    rw [← drop_takeWhile, mem_iff_getElem?]
    exact ⟨index - file.firstAfter offset, by rw [getElem?_drop, ← found]; exact congrArg _ (Nat.add_sub_cancel' late)⟩
  · by_contra early
    have inFront : extent ∈ file.extents.takeWhile fun extent => extent.stop ≤ offset := by
      rw [mem_iff_getElem?]
      refine ⟨index, ?_⟩
      rw [← found, ← getElem?_append_left (not_le.mp early), takeWhile_append_dropWhile]
    have holds := mem_takeWhile_imp inFront
    have ended := of_decide_eq_true holds
    omega

theorem entries_pairwise (file : ListedFile) (count : Nat) :
    (file.extents.zipIdx.drop count).Pairwise fun entry later => entry.1.start ≤ later.1.start ∧ entry.2 ≠ later.2 := by
  refine List.Pairwise.drop ?_
  have starts := file.tiles.pairwise.imp_of_mem fun {extent later} member _ before => (file.tiles.stop_le.2 extent member).2.1.trans before
  have indices : (range' 0 file.extents.length).Pairwise (· ≠ ·) := nodup_range'
  rw [← zipIdx_map_fst 0 file.extents, pairwise_map] at starts
  rw [← zipIdx_map_snd 0 file.extents, pairwise_map] at indices
  exact starts.and indices

/-- The loop over the extents that end after the offset hashes the protected bytes of the read. -/
theorem wholeLoop_after (file : ListedFile) (part : Frontier.Part content offset bytes) (whole : List UInt8) :
    wholeLoop offset bytes (file.extents.drop (file.firstAfter offset)) (whole, none) =
      whole ++ file.protectedBytes content offset (offset + bytes.length) := by
  rw [ListedFile.firstAfter, drop_takeWhile]
  obtain ⟨start, before, tiles⟩ := tiles_after file.tiles (zero_le offset)
  rw [wholeLoop_eq part tiles (fun extent member => ⟨(dropWhile_suffix _).subset member, (mem_after file.tiles extent member).le⟩)
    within_none, max_eq_right before]
  rfl

/-- What a read of the content does to one extent. -/
def reach (fingerprint : Hash) (offset : Nat) (bytes : List UInt8) (extent : FileExtent) (part : ExtentVerdict × Option (Frontier UInt8)) :
    ExtentVerdict × Option (Frontier UInt8) :=
  if extent.start < offset + bytes.length ∧ offset < extent.stop then
    touch fingerprint extent (max extent.start offset - extent.start) (share offset bytes extent) part
  else part

/-- A read of the content feeds each extent its bytes. In order, it hashes the protected bytes of the read and goes on behind it. -/
theorem feed_spec (verifier : StreamingVerifier) (granting : Granting source) (short : bytes.length < 2 ^ 63) (part : Frontier.Part content offset bytes)
    (readable : checkRead source offset bytes = .ok ()) : ∃ fed, feed source offset bytes verifier = .ok fed ∧
      (∀ index extent, source.file.extents[index]? = some extent →
        fed.slot index = reach source.fingerprint offset bytes extent (verifier.slot index)) ∧
      fed.wholeOrdered = (keepOrder source offset bytes verifier).wholeOrdered ∧
      (if fed.wholeOrdered then fed.whole = verifier.whole ++ source.file.protectedBytes content offset (offset + bytes.length) ∧
          fed.wholeNext = offset + bytes.length
        else fed.whole = verifier.whole ∧ fed.wholeNext = verifier.wholeNext) := by
  have kept : (keepOrder source offset bytes verifier).slot = verifier.slot ∧
      (keepOrder source offset bytes verifier).whole = verifier.whole ∧
      (keepOrder source offset bytes verifier).wholeNext = verifier.wholeNext := by
    unfold keepOrder
    split_ifs
    · exact ⟨rfl, rfl, rfl⟩
    · exact ⟨rfl, rfl, rfl⟩
  obtain ⟨slots, whole, next⟩ := kept
  rw [feed, readable]
  generalize keepOrder source offset bytes verifier = ordered at slots whole next ⊢
  obtain ⟨others, touched⟩ := feedLoop_slot granting short (entries_pairwise source.file (source.file.firstAfter offset)) none ordered
  obtain ⟨hashed, still, order⟩ := feedLoop_whole granting short _ none ordered
  generalize feedLoop source offset bytes _ none ordered = fed at *
  have slot (index : Nat) (extent : FileExtent) (found : source.file.extents[index]? = some extent) :
      fed.slot index = reach source.fingerprint offset bytes extent (verifier.slot index) := by
    rw [← slots, reach]
    split_ifs with meets
    · exact touched extent index (mem_entries.mpr ⟨found, meets.2⟩) meets.1
    · refine others index fun other member => ?_
      obtain ⟨found', ends⟩ := mem_entries.mp member
      cases found.symm.trans found'
      exact not_lt.mp fun begins => meets ⟨begins, ends⟩
  refine ⟨_, rfl, ?_⟩
  cases keeps : fed.wholeOrdered with
  | false =>
    rw [if_neg Bool.false_ne_true]
    refine ⟨slot, keeps.symm.trans order ▸ keeps, ?_⟩
    rw [keeps, if_neg Bool.false_ne_true]
    rw [← order, keeps, if_neg Bool.false_ne_true] at hashed
    exact ⟨hashed.trans whole, still.trans next⟩
  | true =>
    rw [if_pos rfl]
    refine ⟨slot, keeps.symm.trans order, ?_⟩
    rw [if_pos rfl]
    rw [← order, keeps, if_pos rfl] at hashed
    refine ⟨hashed.trans ?_, rfl⟩
    rw [map_drop, zipIdx_map_fst, wholeLoop_after source.file part, whole]

end StreamingVerifier
end Rarpar.Par3

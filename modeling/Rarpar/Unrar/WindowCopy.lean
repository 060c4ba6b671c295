import Mathlib.Data.Vector.Defs
import Rarpar.Unrar.Window

namespace Rarpar.Unrar
open BlockMove RingBuffer Nat
open List hiding Vector

section Moves
variable {buf : Nat → UInt8} {src dst : Nat}

/-- Two overlapping moves of one width; the second ends where the copy ends. -/
theorem move_move_eq_forward {width length : Nat} (least : width ≤ length) (most : length ≤ 2 * width)
    (behind : src < dst → width ≤ dst - src) (ahead : dst < src → width ≤ src - dst) :
    move (src + (length - width)) (dst + (length - width)) width (move src dst width buf) =
      forward src dst length buf := by
  have first : move src dst width buf = forward src dst width buf := move_eq_forward behind
  have second : move _ _ width _ =
      forward src dst (max width (length - width + width)) buf :=
    move_forward (by omega) (by omega) (by omega)
  rw [first, second, Nat.sub_add_cancel least, Nat.max_eq_right least]

theorem copyShortExact_eq_forward {length : Nat} (positive : 0 < length) (short : length ≤ 16)
    (behind : src < dst → 8 ≤ dst - src ∨ length ≤ dst - src) (ahead : dst < src → 8 ≤ src - dst) :
    copyShortExact src dst length buf = forward src dst length buf := by
  unfold copyShortExact
  split
  · exact move_move_eq_forward (by omega) (by omega) (by omega) ahead
  split
  · exact move_move_eq_forward (by omega) (by omega) (by omega)
      (by omega)
  split
  · exact move_move_eq_forward (by omega) (by omega) (by omega)
      (by omega)
  · obtain rfl : length = 1 := by omega
    exact move_eq_forward (fun less => by omega)

/-- Chunks no wider than the gap continue the copy until less than a chunk is left. -/
theorem chunkLoop_forward (src dst fuel : Nat) (buf : Nat → UInt8) {length width i : Nat} (positive : 0 < width)
    (inside : i ≤ length) (enough : length ≤ i + fuel) (behind : src < dst → width ≤ dst - src) :
    ∃ j, chunkLoop src dst length width fuel (i, forward src dst i buf) = (j, forward src dst j buf) ∧
      j ≤ length ∧ length < j + width := by
  induction fuel generalizing i with
  | zero => exact ⟨i, rfl, inside, by omega⟩
  | succ fuel ih =>
    rw [chunkLoop]
    split_ifs with room
    · have moved : move (src + i) (dst + i) width _ = forward src dst _ buf :=
        move_forward le_rfl (by omega) (fun _ => le_add_right _ _)
      rw [moved, max_eq_right (le_add_right _ _)]
      exact ih room (by omega)
    · exact ⟨i, rfl, inside, by omega⟩

theorem copyChunked_eq_forward {gap length : Nat} (long : 16 < length) (wide : 8 ≤ gap)
    (behind : src < dst → gap = dst - src) (ahead : dst < src → gap = src - dst) :
    copyChunked src dst gap length buf = forward src dst length buf := by
  have wideChunks : ∃ i, (if gap ≥ 16 then chunkLoop src dst length 16 length (0, buf) else (0, buf)) =
      (i, forward src dst i buf) ∧ i ≤ length := by
    split
    · obtain ⟨i, run, inside, _⟩ := chunkLoop_forward src dst length buf (show 0 < 16 by omega) (zero_le length)
        (by omega) (by omega)
      exact ⟨i, run, inside⟩
    · exact ⟨0, rfl, zero_le _⟩
  obtain ⟨i, first, inside⟩ := wideChunks
  obtain ⟨j, second, done, left⟩ := chunkLoop_forward src dst length buf (show 0 < 8 by omega) inside (by omega)
    (by omega)
  simp only [copyChunked, first, second]
  split
  · -- the last store overlaps the chunk before it
    have moved : move _ _ 8 (forward src dst j buf) =
        forward src dst (max j (length - 8 + 8)) buf :=
      move_forward (by omega) (by omega) (by omega)
    rw [moved, Nat.max_eq_right (by omega), Nat.sub_add_cancel (by omega)]
  · rw [show j = length by omega]

theorem doubleLoop_done (dst length fuel : Nat) (buf : Nat → UInt8) :
    doubleLoop dst length fuel (length, buf) = (length, buf) := by
  cases fuel with
  | zero => rfl
  | succ fuel => rw [doubleLoop, if_neg (lt_irrefl _)]

/-- The doubled prefix is a whole number of periods, up to the last chunk. -/
theorem doubleLoop_forward (buf : Nat → UInt8) {length fuel rounds : Nat} (less : src < dst) (positive : 0 < rounds)
    (inside : rounds * (dst - src) ≤ length) (enough : length ≤ rounds * (dst - src) + fuel) :
    (doubleLoop dst length fuel (rounds * (dst - src), forward src dst (rounds * (dst - src)) buf)).2 =
      forward src dst length buf := by
  induction fuel generalizing rounds with
  | zero => rw [doubleLoop, show length = rounds * (dst - src) by omega]
  | succ fuel ih =>
    have copied : 0 < rounds * (dst - src) := mul_pos positive (by omega)
    rw [doubleLoop]
    split_ifs with more
    · have stored (chunk : Nat) (some : 0 < chunk) (fits : chunk ≤ rounds * (dst - src)) :
          (if chunk ≤ 16 then copyShortExact dst (dst + rounds * (dst - src)) chunk
              (forward src dst (rounds * (dst - src)) buf)
            else move dst (dst + rounds * (dst - src)) chunk (forward src dst (rounds * (dst - src)) buf)) =
          forward src dst (rounds * (dst - src) + chunk) buf := by
        rw [← move_double less fits]
        split
        · simp_all [copyShortExact_eq_forward, move_eq_forward]
        · rfl
      dsimp only
      rw [stored _ (by omega) (by omega)]
      by_cases whole : 2 * (rounds * (dst - src)) ≤ length
      · have twice : rounds * (dst - src) + min (rounds * (dst - src)) (length - rounds * (dst - src)) =
            2 * rounds * (dst - src) := by
          rw [min_eq_left (by omega), mul_assoc]
          omega
        rw [twice]
        exact ih (by omega) (by rw [mul_assoc]; exact whole) (by rw [mul_assoc]; omega)
      · rw [show rounds * (dst - src) + min _ _ = length by omega,
          doubleLoop_done]
    · rw [show length = rounds * (dst - src) by omega]

/-- Every path of a copy that does not wrap stores what the byte loop stores. -/
theorem copyCellsFast_eq_forward {length : Nat} (positive : 0 < length) :
    copyCellsFast src dst length buf = forward src dst length buf := by
  unfold copyCellsFast
  generalize distance : (if src ≤ dst then dst - src else src - dst) = gap
  have behind : src < dst → gap = dst - src := fun less => by rw [← distance, if_pos less.le]
  have ahead : dst < src → gap = src - dst := fun more => by rw [← distance, if_neg (by omega)]
  by_cases wide : gap ≥ 8
  · rw [if_pos wide]
    split
    · exact copyShortExact_eq_forward positive (by assumption) (by omega)
        (by omega)
    split
    · exact move_eq_forward (by omega)
    · exact copyChunked_eq_forward (by omega) wide behind ahead
  · rw [if_neg wide]
    split
    · rename_i less
      obtain rfl := behind less
      split
      · rfl
      · have seed : copyShortExact src dst (dst - src) buf = forward src dst (1 * (dst - src)) buf := by
          rw [one_mul]
          exact copyShortExact_eq_forward (by omega) (by omega) (fun _ => Or.inr le_rfl) (fun _ => by omega)
        have doubled : (doubleLoop dst length length (1 * (dst - src), forward src dst _ buf)).2 =
            forward src dst length buf := doubleLoop_forward buf less one_pos (by omega) (by omega)
        rw [seed]
        rwa [one_mul] at doubled ⊢
    · rfl

end Moves

namespace Window
variable {w : Window} {history : List UInt8} {allocates : Nat → Bool}

/-- Cursor and cells follow a history of which only the last `dictSize` bytes are kept. -/
structure Ring (w : Window) (history : List UInt8) : Prop where
  positive : 0 < w.dictSize
  allocated : w.dictSize ≤ w.allocated
  pos : w.pos = history.length % w.dictSize
  done : w.firstWinDone = decide (w.dictSize ≤ history.length)
  holds : Holds w.dictSize w.buf history

/-- The ring of a window that has counted every byte of the history. -/
structure Tracks (w : Window) (history : List UInt8) : Prop extends Ring w history where
  written : w.totalWritten = history.length

/-- What a write of `n` counted bytes leaves alone. -/
structure Advances (n : Nat) (w w' : Window) : Prop where
  dictSize : w'.dictSize = w.dictSize
  flushed : w'.totalFlushed = w.totalFlushed
  ranges : w'.invisibleRanges = w.invisibleRanges
  pending : w'.invisiblePending = w.invisiblePending
  written : w'.totalWritten = w.totalWritten + n

theorem Advances.refl (w : Window) : Advances 0 w w := ⟨rfl, rfl, rfl, rfl, rfl⟩

theorem Advances.trans {m n : Nat} {w' w'' : Window} (first : Advances m w w') (second : Advances n w' w'') :
    Advances (m + n) w w'' where
  dictSize := second.dictSize.trans first.dictSize
  flushed := second.flushed.trans first.flushed
  ranges := second.ranges.trans first.ranges
  pending := second.pending.trans first.pending
  written := by rw [second.written, first.written, add_assoc]

theorem append_advances (bytes : List UInt8) (w : Window) : Advances 0 w (w.append bytes) := by
  unfold append step
  split <;> exact ⟨rfl, rfl, rfl, rfl, rfl⟩

theorem Ring.pos_lt (ring : Ring w history) : w.pos < w.dictSize := by
  rw [ring.pos]
  exact mod_lt _ ring.positive

/-- The first wrap is not reached while the cursor stays in the ring. -/
theorem wrapped_iff {size length n : Nat} (below : length % size + n < size) : size ≤ length ↔ size ≤ length + n := by
  refine ⟨fun wrapped => by omega, fun wrapped => ?_⟩
  by_contra short
  rw [mod_eq_of_lt (by omega)] at below
  omega

theorem Ring.append (ring : Ring w history) (bytes : List UInt8) (fits : w.pos + bytes.length ≤ w.dictSize) :
    Ring (w.append bytes) (history ++ bytes) := by
  have cursor := ring.pos
  have least := mod_le history.length w.dictSize
  have held : Holds w.dictSize (store w.pos bytes w.buf) (history ++ bytes) := by
    rw [cursor] at fits ⊢
    exact ring.holds.store fits
  unfold Window.append step
  split_ifs with full
  · dsimp only at full
    refine ⟨ring.positive, ring.allocated, ?_, ?_, held⟩
    · dsimp only
      rw [length_append, add_mod_of_eq (by omega)]
    · grind
  · dsimp only at full
    refine ⟨ring.positive, ring.allocated, ?_, ?_, held⟩
    · dsimp only
      rw [length_append, add_mod_of_lt (by omega), cursor]
    · dsimp only
      rw [ring.done, length_append, decide_eq_decide]
      exact wrapped_iff (by omega)

theorem Ring.credit (ring : Ring w history) (n : Nat) : Ring (w.credit n) history :=
  ⟨ring.positive, ring.allocated, ring.pos, ring.done, ring.holds⟩

theorem putLoop_ring {fuel : Nat} (rest : List UInt8) (enough : rest.length ≤ fuel) (ring : Ring w history) :
    Ring (putLoop fuel rest w) (history ++ rest) ∧ Advances 0 w (putLoop fuel rest w) := by
  induction fuel generalizing rest w history with
  | zero =>
    obtain rfl := length_eq_zero_iff.mp (le_zero.mp enough)
    exact ⟨by simpa [putLoop] using ring, .refl w⟩
  | succ fuel ih =>
    rw [putLoop]
    split_ifs with empty
    · obtain rfl := isEmpty_iff.mp empty
      exact ⟨by simpa using ring, .refl w⟩
    · have cursor := ring.pos_lt
      generalize size : min rest.length _ = chunk
      have stored : Ring _ (history ++ rest.take chunk) :=
        ring.append _ (by rw [length_take]; omega)
      obtain ⟨after, advances⟩ := ih (rest.drop chunk) (by rw [length_drop]; omega) stored
      rw [append_assoc, take_append_drop] at after
      exact ⟨after, (append_advances _ w).trans advances⟩

theorem fillLoop_eq_putLoop (byte : UInt8) (fuel remaining : Nat) (w : Window) :
    fillLoop byte fuel remaining w = putLoop fuel (replicate remaining byte) w := by
  induction fuel generalizing remaining w with
  | zero => rfl
  | succ fuel ih =>
    rw [fillLoop, putLoop]
    cases remaining with
    | zero => rfl
    | succ remaining =>
      grind

section
variable (tracks : Tracks w history)
include tracks

/-- Stores that together append `bytes`, then counted. -/
theorem Tracks.credit {w' : Window} {bytes : List UInt8}
    (ring : Ring w' (history ++ bytes)) (advances : Advances 0 w w') :
    Tracks (w'.credit bytes.length) (history ++ bytes) ∧ Advances bytes.length w (w'.credit bytes.length) := by
  have counted : Advances bytes.length w' (w'.credit bytes.length) := ⟨rfl, rfl, rfl, rfl, rfl⟩
  have all := advances.trans counted
  rw [zero_add] at all
  exact ⟨⟨ring.credit _, by rw [all.written, tracks.written, length_append]⟩, all⟩

theorem putByte_tracks (b : UInt8) : Tracks (w.putByte b) (history ++ [b]) ∧ Advances 1 w (w.putByte b) :=
  tracks.credit (tracks.toRing.append [b] tracks.pos_lt) (append_advances [b] w)

theorem putBytes_tracks (bytes : List UInt8) :
    Tracks (w.putBytes bytes) (history ++ bytes) ∧ Advances bytes.length w (w.putBytes bytes) := by
  unfold putBytes
  split
  · rename_i empty
    obtain rfl := length_eq_zero_iff.mp empty
    exact ⟨by simpa using tracks, .refl w⟩
  split_ifs with fits
  · exact tracks.credit (tracks.toRing.append bytes fits) (append_advances bytes w)
  · obtain ⟨ring, advances⟩ := putLoop_ring bytes le_rfl tracks.toRing
    exact tracks.credit ring advances

theorem putLiteralBatch_tracks (bytes : Vector UInt8 8) {n : Nat} (most : n ≤ 8) :
    Tracks (w.putLiteralBatch bytes n) (history ++ bytes.toList.take n) ∧
      Advances n w (w.putLiteralBatch bytes n) := by
  have length : bytes.toList.length = 8 := bytes.length_toList
  unfold putLiteralBatch
  split_ifs with whole
  · obtain ⟨rfl, fits⟩ := whole
    have stored := tracks.credit (tracks.toRing.append _ (by rw [length]; exact fits)) (append_advances bytes.toList w)
    rw [length] at stored
    rwa [take_of_length_le length.le]
  · have stored := putBytes_tracks tracks (bytes.toList.take n)
    rwa [length_take, length, min_eq_left most] at stored

theorem fillLoop_tracks (byte : UInt8) (length : Nat) :
    Tracks ((fillLoop byte length length w).credit length) (history ++ replicate length byte) ∧
      Advances length w ((fillLoop byte length length w).credit length) := by
  obtain ⟨ring, advances⟩ := putLoop_ring _ (length_replicate).le tracks.toRing
  rw [← fillLoop_eq_putLoop] at ring advances
  have stored := tracks.credit ring advances
  rwa [length_replicate] at stored

end

/-- A match on the whole history: zeros for a distance that reaches before it or out of the dictionary. -/
def appendMatch (dictSize distance length : Nat) (history : List UInt8) : List UInt8 :=
  if distance > dictSize ∨ (history.length < dictSize ∧ distance > history.length) then
    history ++ List.replicate length 0
  else repeatBack distance length history

theorem appendMatch_length (dictSize distance length : Nat) (history : List UInt8) :
    (appendMatch dictSize distance length history).length = history.length + length := by
  unfold appendMatch
  split
  · rw [length_append, length_replicate]
  · exact repeatBack_length _ _ _

theorem appendMatch_eq_append (dictSize distance length : Nat) (history : List UInt8) :
    appendMatch dictSize distance length history =
      history ++ (appendMatch dictSize distance length history).drop history.length := by
  have starts : history <+: appendMatch dictSize distance length history := by
    unfold appendMatch
    split
    · exact prefix_append _ _
    · exact prefix_repeatBack _ _ _
  exact (prefix_iff_eq_append.mp starts).symm

/-- The guard of the zero fill, on the history. -/
theorem Ring.outside_iff (ring : Ring w history) (distance : Nat) :
    (distance > w.dictSize ∨ (distance > w.pos ∧ w.firstWinDone = false)) ↔
      (distance > w.dictSize ∨ (history.length < w.dictSize ∧ distance > history.length)) := by
  rw [ring.done, ring.pos, decide_eq_false_iff_not, not_le]
  constructor
  · rintro (far | ⟨before, short⟩)
    · exact Or.inl far
    · rw [mod_eq_of_lt short] at before
      exact Or.inr ⟨short, before⟩
  · rintro (far | ⟨short, before⟩)
    · exact Or.inl far
    · exact Or.inr ⟨by rwa [mod_eq_of_lt short], short⟩

theorem Ring.back_eq (ring : Ring w history) {distance : Nat} (positive : 0 < distance) (near : distance ≤ w.dictSize)
    (inside : distance ≤ history.length) : w.back distance = (history.length - distance) % w.dictSize := by
  rw [sub_mod_eq_ite positive near inside, back, ring.pos]

/-- The byte loop with wraps keeps cursor, flag and cells of the ring. -/
theorem copyRing_spec {size distance : Nat} (positive : 0 < distance) (near : distance ≤ size) (n : Nat) {src dst : Nat}
    {done : Bool} {buf : Nat → UInt8} (inside : distance ≤ history.length)
    (source : src = (history.length - distance) % size) (cursor : dst = history.length % size)
    (flag : done = decide (size ≤ history.length)) (holds : Holds size buf history) :
    ∃ buf', copyRing size n src dst done buf =
        ((history.length + n) % size, decide (size ≤ history.length + n), buf') ∧
      Holds size buf' (repeatBack distance n history) := by
  induction n generalizing src dst done buf history with
  | zero => exact ⟨buf, by rw [copyRing, cursor, flag]; rfl, holds⟩
  | succ n ih =>
    have sizePositive : 0 < size := by omega
    have dstLt := mod_lt history.length sizePositive
    have srcLt := mod_lt (history.length - distance) sizePositive
    have least := mod_le history.length size
    have stepped := holds.step positive near inside
    rw [← source, ← cursor] at stepped
    have length : (history ++ [history.getD (history.length - distance) default]).length = history.length + 1 := by
      rw [length_append, length_singleton]
    have sourceNext : (if src + 1 = size then 0 else src + 1) = (history.length + 1 - distance) % size := by
      rw [show history.length + 1 - distance = history.length - distance + 1 by omega]
      split
      · rw [add_mod_of_eq (by omega)]
      · rw [add_mod_of_lt (by omega), source]
    have next (dst' : Nat) (done' : Bool) (cursor' : dst' = (history.length + 1) % size)
        (flag' : done' = decide (size ≤ history.length + 1)) :
        ∃ buf', copyRing size n (if src + 1 = size then 0 else src + 1) dst' done'
            (Function.update buf dst (buf src)) =
          ((history.length + (n + 1)) % size, decide (size ≤ history.length + (n + 1)), buf') ∧
          Holds size buf' (repeatBack distance (n + 1) history) := by
      obtain ⟨buf', run, after⟩ := ih (by omega) rfl rfl rfl stepped
      rw [length, add_assoc, add_comm 1 n, ← sourceNext, ← cursor', ← flag'] at run
      exact ⟨buf', run, after⟩
    rw [copyRing]
    split
    · rename_i wraps
      refine next 0 true (add_mod_of_eq (by omega)).symm ?_
      rw [eq_comm, decide_eq_true_iff]
      omega
    · refine next (dst + 1) done (by rw [add_mod_of_lt (by omega), cursor]) ?_
      rw [flag, decide_eq_decide]
      exact wrapped_iff (by omega)

/-- Every branch of a match appends the same bytes to the history. -/
theorem copyAdvance_tracks (tracks : Tracks w history) {distance : Nat} (positive : 0 < distance) (length : Nat) :
    Tracks (w.copyAdvance distance length) (appendMatch w.dictSize distance length history) ∧
      Advances length w (w.copyAdvance distance length) := by
  have ring := tracks.toRing
  have counted := appendMatch_length w.dictSize distance length history
  unfold copyAdvance
  split
  · rename_i none
    subst none
    have same : appendMatch w.dictSize distance 0 history = history := by
      unfold appendMatch
      split
      · exact append_nil _
      · rfl
    rw [same]
    exact ⟨tracks, .refl w⟩
  rw [if_neg (by omega)]
  by_cases outside : distance > w.dictSize ∨ (distance > w.pos ∧ w.firstWinDone = false)
  · rw [if_pos outside, appendMatch, if_pos ((ring.outside_iff _).mp outside)]
    exact fillLoop_tracks tracks 0 length
  rw [if_neg outside]
  rw [ring.outside_iff] at outside
  have near : distance ≤ w.dictSize := by omega
  have inside : distance ≤ history.length := by omega
  have source := ring.back_eq positive near inside
  rw [appendMatch, if_neg outside] at counted ⊢
  dsimp only
  split
  · rename_i one
    subst one
    rw [source, ring.holds.read positive near inside,
      repeatBack_one length (ne_nil_of_length_pos (by omega))]
    split_ifs with fits
    · have stored := tracks.credit (ring.append (replicate length (history.getD (history.length - 1) default))
        (by rwa [length_replicate])) (append_advances _ w)
      rwa [length_replicate] at stored
    · exact fillLoop_tracks tracks _ length
  split_ifs with far
  · have cursor := ring.pos
    have held := ring.holds.forward positive near inside (n := length) (by omega) (by omega)
    refine ⟨⟨⟨ring.positive, ring.allocated, ?_, ?_, ?_⟩, ?_⟩, ⟨rfl, rfl, rfl, rfl, rfl⟩⟩
    · change w.pos + length = (repeatBack distance length history).length % w.dictSize
      rw [counted, add_mod_of_lt (by omega), cursor]
    · change w.firstWinDone = decide (w.dictSize ≤ (repeatBack distance length history).length)
      rw [ring.done, decide_eq_decide, counted]
      exact wrapped_iff (by omega)
    · change Holds w.dictSize (copyCellsFast (w.back distance) w.pos length w.buf) _
      rw [copyCellsFast_eq_forward (by omega), source, cursor]
      exact held
    · change w.totalWritten + length = _
      rw [counted, tracks.written]
  · obtain ⟨buf', run, held⟩ := copyRing_spec positive near length inside source ring.pos ring.done ring.holds
    rw [run]
    exact ⟨⟨⟨ring.positive, ring.allocated, by rw [counted], by rw [counted], held⟩,
      by change w.totalWritten + length = _; rw [counted, tracks.written]⟩, ⟨rfl, rfl, rfl, rfl, rfl⟩⟩

theorem truncate_dictSize (startTotal length visibleLen : Nat) (w : Window) :
    (w.truncate startTotal length visibleLen).dictSize = w.dictSize := by
  unfold truncate markInvisible
  dsimp only
  split
  · split <;> rfl
  · rfl

/-- A window as `tryNew` or a reset leaves it follows the empty history, whatever its cells hold. -/
theorem rewind_tracks (positive : 0 < w.dictSize) (allocated : w.dictSize ≤ w.allocated) : Tracks w.rewind [] where
  positive := positive
  allocated := allocated
  pos := (zero_mod _).symm
  done := (decide_eq_false (not_le.mpr positive)).symm
  holds := holds_nil _ _
  written := rfl

theorem tryNew_tracks {dictSize : Nat} (made : tryNew allocates dictSize = .ok w) :
    Tracks w [] ∧ w.dictSize = dictSize ∧ w = w.rewind := by
  unfold tryNew at made
  split at made
  · cases made
  split at made
  · cases made
    exact ⟨@rewind_tracks ⟨fun _ => 0, dictSize, dictSize, 0, false, 0, 0, [], 0⟩ (show 0 < dictSize by omega) le_rfl, rfl, rfl⟩
  · cases made

theorem resetForReuse_tracks {dictSize : Nat} {old : Window}
    (made : old.resetForReuse allocates dictSize = .ok w) : Tracks w [] ∧ w.dictSize = dictSize ∧ w = w.rewind := by
  unfold resetForReuse ensureCapacity at made
  split at made
  · cases made
  split at made
  · split at made
    · cases made
      exact ⟨rewind_tracks (show 0 < dictSize by omega) le_rfl, rfl, rfl⟩
    · cases made
  · cases made
    exact ⟨rewind_tracks (show 0 < dictSize by omega) (show dictSize ≤ old.allocated by omega), rfl, rfl⟩

end Window
end Rarpar.Unrar

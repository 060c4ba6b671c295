import Rarpar.Data.Ranges
import Rarpar.Unrar.WindowCopy

namespace Rarpar.Unrar
open RingBuffer Ranges
open List hiding Vector

/-- The unbounded output: every byte ever written, whether callers may see it, and how many of them
have been flushed. -/
structure Output where
  cells : List (UInt8 × Bool)
  flushed : Nat
deriving DecidableEq

namespace Output

def bytes (o : Output) : List UInt8 := o.cells.map Prod.fst

def shown (cells : List (UInt8 × Bool)) (i : Nat) : Bool := cells[i]?.any Prod.snd

/-- The bytes of the cells that callers may see. -/
def visible (cells : List (UInt8 × Bool)) : List UInt8 := (cells.filter Prod.snd).map Prod.fst

/-- New bytes of which the first `count` may be seen. -/
def flag (count : Nat) (bytes : List UInt8) : List (UInt8 × Bool) :=
  (bytes.take count).map (fun b => (b, true)) ++ (bytes.drop count).map (fun b => (b, false))

def push (count : Nat) (bytes : List UInt8) (o : Output) : Output := { o with cells := o.cells ++ flag count bytes }

/-- The bytes a match adds. -/
def matched (dictSize distance length : Nat) (o : Output) : List UInt8 :=
  (Window.appendMatch dictSize distance length o.bytes).drop o.bytes.length

/-- Emits the visible cells before `target` that have not been flushed. -/
def flush (target : Nat) (o : Output) : List UInt8 × Output :=
  (visible (slice o.flushed target o.cells), { o with flushed := max o.flushed target })

end Output

/-- The calls on a window. -/
inductive WindowOp where
  | putByte (b : UInt8)
  | putBytes (bytes : List UInt8)
  | putLiteralBatch (bytes : Vector UInt8 8) (n : Nat)
  | copy (distance length : Nat)
  | copyWithVisibleLen (distance length visibleLen : Nat)
  | flushToWriter
  | flushVisibleUntil (upTo : Nat)

namespace Output

/-- What a call does to the unbounded output, and what it emits. -/
def apply (dictSize : Nat) : WindowOp → Output → List UInt8 × Output
  | .putByte b, o => ([], o.push 1 [b])
  | .putBytes bytes, o => ([], o.push bytes.length bytes)
  | .putLiteralBatch bytes n, o => ([], o.push n (bytes.toList.take n))
  | .copy distance length, o => ([], o.push length (o.matched dictSize distance length))
  | .copyWithVisibleLen distance length visibleLen, o => ([], o.push visibleLen (o.matched dictSize distance length))
  | .flushToWriter, o => o.flush o.cells.length
  | .flushVisibleUntil upTo, o => o.flush (min upTo o.cells.length)

/-- The visible output that a flush up to `target` has to emit is still in the dictionary. -/
def Within (dictSize target : Nat) (o : Output) : Prop :=
  ∀ i < target, o.flushed ≤ i → shown o.cells i = true → o.cells.length ≤ i + dictSize

instance (dictSize target : Nat) (o : Output) : Decidable (o.Within dictSize target) :=
  inferInstanceAs (Decidable (∀ i < target, o.flushed ≤ i → shown o.cells i = true → o.cells.length ≤ i + dictSize))

/-- The calls that the window is meant for. -/
def Legal (dictSize : Nat) : WindowOp → Output → Prop
  | .putLiteralBatch _ n, _ => 1 ≤ n ∧ n ≤ 8
  | .copy distance _, _ => 1 ≤ distance
  | .copyWithVisibleLen distance _ _, _ => 1 ≤ distance
  | .flushToWriter, o => o.Within dictSize o.cells.length
  | .flushVisibleUntil upTo, o => o.Within dictSize (min upTo o.cells.length)
  | _, _ => True

instance (dictSize : Nat) (op : WindowOp) (o : Output) : Decidable (Legal dictSize op o) :=
  match op with
  | .putByte _ | .putBytes _ => inferInstanceAs (Decidable True)
  | .putLiteralBatch _ n => inferInstanceAs (Decidable (1 ≤ n ∧ n ≤ 8))
  | .copy distance _ | .copyWithVisibleLen distance _ _ => inferInstanceAs (Decidable (1 ≤ distance))
  | .flushToWriter => inferInstanceAs (Decidable (o.Within dictSize o.cells.length))
  | .flushVisibleUntil upTo => inferInstanceAs (Decidable (o.Within dictSize (min upTo o.cells.length)))

def LegalRun (dictSize : Nat) : List WindowOp → Output → Prop
  | [], _ => True
  | op :: ops, o => Legal dictSize op o ∧ LegalRun dictSize ops (o.apply dictSize op).2

instance decidableLegalRun (dictSize : Nat) : (ops : List WindowOp) → (o : Output) → Decidable (LegalRun dictSize ops o)
  | [], _ => isTrue trivial
  | op :: ops, o =>
    have := decidableLegalRun dictSize ops (o.apply dictSize op).2
    inferInstanceAs (Decidable (_ ∧ _))

/-- What each call of a run emits, and the output after it. -/
def run (dictSize : Nat) : List WindowOp → Output → List (List UInt8) × Output
  | [], o => ([], o)
  | op :: ops, o =>
    let (emitted, o) := o.apply dictSize op
    let (rest, o) := run dictSize ops o
    (emitted :: rest, o)

end Output

namespace Window

def apply : WindowOp → Window → Except RarError (List UInt8 × Window)
  | .putByte b, w => .ok ([], w.putByte b)
  | .putBytes bytes, w => .ok ([], w.putBytes bytes)
  | .putLiteralBatch bytes n, w => .ok ([], w.putLiteralBatch bytes n)
  | .copy distance length, w => .ok ([], w.copy distance length)
  | .copyWithVisibleLen distance length visibleLen, w => .ok ([], w.copyWithVisibleLen distance length visibleLen)
  | .flushToWriter, w => w.flushToWriter.map fun (bytes, _, w) => (bytes, w)
  | .flushVisibleUntil upTo, w => (w.flushVisibleUntil upTo).map fun (bytes, _, w) => (bytes, w)

def run : List WindowOp → Window → Except RarError (List (List UInt8) × Window)
  | [], w => .ok ([], w)
  | op :: ops, w => do
    let (emitted, w) ← w.apply op
    let (rest, w) ← run ops w
    pure (emitted :: rest, w)

end Window

section Cells
open Output
variable {cells : List (UInt8 × Bool)}

theorem shown_append_left {i : Nat} (inside : i < cells.length) (more : List (UInt8 × Bool)) :
    shown (cells ++ more) i = shown cells i := by
  unfold shown
  rw [getElem?_append_left inside]

variable {a b : Nat}

theorem snd_of_mem_slice {value : Bool} (all : ∀ i, a ≤ i → i < b → shown cells i = value)
    {cell : UInt8 × Bool} (member : cell ∈ slice a b cells) : cell.2 = value := by
  obtain ⟨i, least, most, present⟩ := mem_slice.mp member
  simpa [shown, present] using all i least most

/-- A span that callers see is emitted as it is. -/
theorem visible_slice_of_shown (all : ∀ i, a ≤ i → i < b → shown cells i = true) :
    visible (slice a b cells) = slice a b (cells.map Prod.fst) := by
  unfold visible
  rw [slice_map, filter_eq_self.mpr fun _ => snd_of_mem_slice all]

theorem visible_slice_of_hidden (all : ∀ i, a ≤ i → i < b → shown cells i = false) :
    visible (slice a b cells) = [] := by
  unfold visible
  rw [filter_eq_nil_iff.mpr fun _ member => Bool.not_eq_true _ ▸ snd_of_mem_slice all member, map_nil]

theorem visible_slice_append {c : Nat} (first : a ≤ b) (second : b ≤ c) :
    visible (slice a c cells) = visible (slice a b cells) ++ visible (slice b c cells) := by
  unfold visible
  rw [slice_append first second, filter_append, map_append]

theorem flag_length (count : Nat) (bytes : List UInt8) : (flag count bytes).length = bytes.length := by
  unfold flag
  rw [length_append, length_map, length_map, ← length_append, take_append_drop]

theorem flag_bytes (count : Nat) (bytes : List UInt8) : (flag count bytes).map Prod.fst = bytes := by
  simp [flag, Function.comp_def]

/-- Which of the appended cells are seen. -/
theorem shown_push {count i : Nat} {bytes : List UInt8} (least : cells.length ≤ i)
    (inside : i < cells.length + bytes.length) :
    shown (cells ++ flag count bytes) i = decide (i < cells.length + count) := by
  unfold shown flag
  rw [getElem?_append_right least]
  grind

/-- What is emitted are the visible cells that the border moves over. -/
structure Output.Emits (o : Output) (emitted : List UInt8) (o' : Output) : Prop where
  grown : o.cells <+: o'.cells
  moved : o.flushed ≤ o'.flushed
  border : o'.flushed ≤ o'.cells.length
  emitted : emitted = visible (slice o.flushed o'.flushed o'.cells)

theorem Output.apply_emits (dictSize : Nat) (op : WindowOp) {o : Output} (border : o.flushed ≤ o.cells.length) :
    Emits o (o.apply dictSize op).1 (o.apply dictSize op).2 := by
  have pushed (count : Nat) (bytes : List UInt8) : Emits o [] (o.push count bytes) := by
    refine ⟨prefix_append _ _, le_rfl, ?_, by simp [Output.push, slice, visible]⟩
    rw [Output.push, length_append]
    exact border.trans (Nat.le_add_right _ _)
  have flushed {target : Nat} (most : target ≤ o.cells.length) : Emits o (o.flush target).1 (o.flush target).2 := by
    refine ⟨prefix_refl _, Nat.le_max_left _ _, Nat.max_le.mpr ⟨border, most⟩, ?_⟩
    unfold Output.flush slice
    rw [show max o.flushed target - o.flushed = target - o.flushed by omega]
  cases op with
  | flushToWriter => exact flushed le_rfl
  | flushVisibleUntil upTo => exact flushed (Nat.min_le_right _ _)
  | _ => exact pushed _ _

/-- All that a run emits, in order: the visible cells between the two borders. -/
theorem Output.run_emits (dictSize : Nat) (ops : List WindowOp) {o : Output} (border : o.flushed ≤ o.cells.length) :
    Emits o (o.run dictSize ops).1.flatten (o.run dictSize ops).2 := by
  induction ops generalizing o with
  | nil => exact ⟨prefix_refl _, le_rfl, border, by simp [Output.run, slice, visible]⟩
  | cons op ops ih =>
    obtain ⟨grown, moved, border', emitted⟩ := apply_emits _ op border
    obtain ⟨grown', later, last, rest⟩ := ih border'
    refine ⟨grown.trans grown', moved.trans later, last, ?_⟩
    change (o.apply dictSize op).1 ++ ((o.apply dictSize op).2.run dictSize ops).1.flatten =
      visible (slice o.flushed ((o.apply _ op).2.run _ ops).2.flushed
        ((o.apply _ op).2.run _ ops).2.cells)
    obtain ⟨more, extended⟩ := grown'
    rw [visible_slice_append moved later, rest, emitted, ← extended, slice_append_left border' more]

end Cells

namespace Window
variable {w : Window} {history : List UInt8}

/-- The loop reads a span of the history that the ring still holds. -/
theorem readLoop_eq (ring : Ring w history) {fuel start remaining : Nat} (enough : remaining ≤ fuel)
    (recent : history.length ≤ start + w.dictSize) (inside : start + remaining ≤ history.length) :
    w.readLoop fuel (start % w.dictSize) remaining = slice start (start + remaining) history := by
  induction fuel generalizing start remaining with
  | zero => simp [readLoop, slice, Nat.le_zero.mp enough]
  | succ fuel ih =>
    rw [readLoop]
    split_ifs with none
    · simp [slice, none]
    · have cell := Nat.mod_lt start ring.positive
      dsimp only
      generalize size : min _ remaining = contig
      have piece : (range contig).map (fun i => w.buf (start % w.dictSize + i)) =
          slice start (start + contig) history := by
        refine ext_getElem (by simp [slice]; omega) fun i first second => ?_
        rw [length_map, length_range] at first
        have held := ring.holds (start + i) _ (getElem?_eq_getElem (show start + i < history.length by omega))
          (by omega)
        rw [add_mod_of_lt (by omega)] at held
        simpa [slice] using held
      rw [piece, Nat.mod_add_mod, ih (by omega) (by omega) (by omega),
        show start + contig + (remaining - contig) = start + remaining by omega,
        ← slice_append (Nat.le_add_right _ _) (by omega)]

theorem readLoop_back (tracks : Tracks w history) {start len : Nat} (some : start < history.length)
    (inside : start + len ≤ history.length) (recent : history.length ≤ start + w.dictSize) :
    w.readLoop len (w.back (w.totalWritten - start)) len = slice start (start + len) history := by
  rw [tracks.written, tracks.toRing.back_eq (by omega) (by omega) (by omega),
    show history.length - (history.length - start) = start by omega, readLoop_eq tracks.toRing le_rfl recent inside]

/-- A range that the window still holds is written as the history has it. -/
theorem writeRangeToWriter_eq (tracks : Tracks w history) {start stop : Nat} (least : start ≤ stop)
    (inside : stop ≤ history.length) (recent : start < stop → history.length ≤ start + w.dictSize) :
    w.writeRangeToWriter start (stop - start) = .ok (slice start stop history) := by
  have written := tracks.written
  unfold writeRangeToWriter
  split_ifs with none
  · simp [slice, none]
  · have near := recent (by omega)
    rw [if_neg (by omega), if_neg (by omega), readLoop_back tracks (by omega) (by omega) near, Nat.add_sub_cancel' least]

/-- Bytes copied out of the window are those of the history. -/
theorem tryCopyOutput_eq (tracks : Tracks w history) {start len : Nat} (inside : start + len ≤ history.length)
    (recent : history.length ≤ start + w.dictSize) :
    w.tryCopyOutput start len = .ok (slice start (start + len) history) := by
  have written := tracks.written
  unfold tryCopyOutput
  rw [if_neg (by omega), if_neg (by omega)]
  by_cases last : start = history.length
  · obtain rfl : len = 0 := by omega
    simp [slice, readLoop]
  · rw [readLoop_back tracks (by omega) inside recent]

section Ranges
variable {ranges : List (Nat × Nat)} {startTotal len : Nat}

theorem pushRange_cases (ranges : List (Nat × Nat)) (startTotal len : Nat) :
    pushRange startTotal len ranges = ranges ++ [(startTotal, len)] ∨
      ∃ front last size, ranges = front ++ [(last, size)] ∧ last + size = startTotal ∧
        pushRange startTotal len ranges = front ++ [(last, size + len)] := by
  unfold pushRange
  split
  · rename_i last size isLast
    obtain ⟨front, rfl⟩ := getLast?_eq_some_iff.mp isLast
    split
    · grind
    · exact Or.inl rfl
  · exact Or.inl rfl

theorem covers_pushRange {i : Nat} :
    Covers (pushRange startTotal len ranges) i ↔ Covers ranges i ∨ (startTotal ≤ i ∧ i < startTotal + len) := by
  have single (r : Nat × Nat) : Covers [r] i ↔ r.1 ≤ i ∧ i < r.1 + r.2 := by simp [Covers]
  rcases pushRange_cases ranges startTotal len with pushed | ⟨front, last, size, rfl, touching, merged⟩
  · rw [pushed, covers_append, single]
  · rw [merged, covers_append, covers_append, single, single]
    have joined : (last ≤ i ∧ i < last + (size + len)) ↔
        (last ≤ i ∧ i < last + size) ∨ (startTotal ≤ i ∧ i < startTotal + len) := by omega
    rw [joined, or_assoc]

theorem ordered_pushRange (ordered : Ordered ranges) (inside : ∀ r ∈ ranges, r.1 + r.2 ≤ startTotal) :
    Ordered (pushRange startTotal len ranges) := by
  rcases pushRange_cases ranges startTotal len with pushed | ⟨front, last, size, rfl, _, merged⟩
  · rw [pushed]
    refine pairwise_append.mpr ⟨ordered, pairwise_singleton _ _, fun r member s new => ?_⟩
    obtain rfl := mem_singleton.mp new
    exact inside r member
  · rw [merged]
    obtain ⟨before, _, apart⟩ := pairwise_append.mp ordered
    refine pairwise_append.mpr ⟨before, pairwise_singleton _ _, fun r member s new => ?_⟩
    obtain rfl := mem_singleton.mp new
    exact apart r member (last, size) (mem_singleton_self _)

theorem pushRange_inside (inside : ∀ r ∈ ranges, r.1 + r.2 ≤ startTotal) :
    ∀ r ∈ pushRange startTotal len ranges, r.1 + r.2 ≤ startTotal + len := by
  intro r member
  rcases pushRange_cases ranges startTotal len with pushed | ⟨front, last, size, rfl, touching, merged⟩
  · grind
  · grind

/-- A new range adds its whole length to the overlap. -/
theorem overlap_pushRange (least : a ≤ startTotal) (most : startTotal + len ≤ b) :
    ((pushRange startTotal len ranges).map (overlap a b)).sum = (ranges.map (overlap a b)).sum + len := by
  rcases pushRange_cases ranges startTotal len with pushed | ⟨front, last, size, rfl, touching, merged⟩
  · rw [pushed, map_append, sum_append, map_singleton, sum_singleton]
    unfold overlap
    omega
  · grind [map_singleton, overlap]

/-- Past the last range, where the interval ends does not matter. -/
theorem overlap_inside {a b c : Nat} (inside : ∀ r ∈ ranges, r.1 + r.2 ≤ b) (more : b ≤ c) :
    (ranges.map (overlap a c)).sum = (ranges.map (overlap a b)).sum := by
  congr 1
  refine map_congr_left fun r member => ?_
  have := inside r member
  unfold overlap
  omega

end Ranges

open Output

/-- The window holds what it needs of the unbounded output. -/
structure Refines (w : Window) (o : Output) : Prop where
  tracks : w.Tracks o.bytes
  flushed : w.totalFlushed = o.flushed
  border : o.flushed ≤ o.cells.length
  ordered : Ordered w.invisibleRanges
  inside : ∀ r ∈ w.invisibleRanges, r.1 + r.2 ≤ o.cells.length
  marks : ∀ i, o.flushed ≤ i → i < o.cells.length → (shown o.cells i = false ↔ Covers w.invisibleRanges i)
  pending : w.invisiblePending = w.invisibleOverlap w.totalFlushed w.totalWritten

variable {o : Output}

theorem Refines.written (refines : Refines w o) : w.totalWritten = o.cells.length := by
  rw [refines.tracks.written, Output.bytes, length_map]

theorem truncate_all {startTotal length visibleLen : Nat} (all : length ≤ visibleLen) (w : Window) :
    w.truncate startTotal length visibleLen = w := by
  unfold truncate
  rw [if_neg (by omega)]

/-- Bytes are appended, and what a truncated match has too much is hidden. -/
theorem Refines.push (refines : Refines w o) {w' : Window} {bytes : List UInt8} (count : Nat)
    (tracks : Tracks w' (o.bytes ++ bytes)) (advances : Advances bytes.length w w') :
    Refines (w'.truncate w.totalWritten bytes.length count) (o.push count bytes) := by
  have written := refines.written
  have border := refines.border
  have total : (o.push count bytes).cells.length = o.cells.length + bytes.length := by
    rw [Output.push, length_append, flag_length]
  have pushedBytes : (o.push count bytes).bytes = o.bytes ++ bytes := by
    rw [Output.bytes, Output.push, map_append, flag_bytes]
    rfl
  rw [← pushedBytes] at tracks
  have old {i : Nat} (below : i < o.cells.length) : shown (o.push count bytes).cells i = shown o.cells i :=
    shown_append_left below _
  have new {i : Nat} (least : o.cells.length ≤ i) (most : i < o.cells.length + bytes.length) :
      shown (o.push count bytes).cells i = decide (i < o.cells.length + count) := shown_push least most
  have outside {i : Nat} (least : o.cells.length ≤ i) : ¬ Covers w.invisibleRanges i := by
    rintro ⟨r, member, _, _⟩
    have := refines.inside r member
    omega
  have counted : w.invisiblePending = (w.invisibleRanges.map (overlap o.flushed (o.cells.length + bytes.length))).sum := by
    rw [refines.pending, invisibleOverlap, refines.flushed, written]
    exact (overlap_inside refines.inside (Nat.le_add_right _ _)).symm
  unfold truncate
  dsimp only
  split_ifs with cut
  · rw [markInvisible, if_neg (by omega)]
    have before : ∀ r ∈ w'.invisibleRanges, r.1 + r.2 ≤ w.totalWritten + min count bytes.length := by
      intro r member
      rw [advances.ranges] at member
      have := refines.inside r member
      omega
    refine ⟨⟨⟨tracks.positive, tracks.allocated, tracks.pos, tracks.done, tracks.holds⟩, tracks.written⟩,
      advances.flushed.trans refines.flushed, ?_, ?_, ?_, ?_, ?_⟩
    · rw [total]
      exact border.trans (Nat.le_add_right _ _)
    · exact ordered_pushRange (by rw [advances.ranges]; exact refines.ordered) before
    · intro r member
      have := pushRange_inside before r member
      rw [total]
      omega
    · intro i least most
      rw [total] at most
      rw [covers_pushRange, advances.ranges]
      by_cases below : i < o.cells.length
      · rw [old below, refines.marks i least below]
        constructor
        · exact Or.inl
        · grind
      · grind
    · change w'.invisiblePending + _ = ((pushRange _ _ w'.invisibleRanges).map _).sum
      rw [advances.pending, advances.ranges, advances.flushed, advances.written, refines.flushed, written,
        overlap_pushRange (by omega) (by omega), counted]
  · refine ⟨tracks, advances.flushed.trans refines.flushed, ?_, ?_, ?_, ?_, ?_⟩
    · rw [total]
      exact border.trans (Nat.le_add_right _ _)
    · rw [advances.ranges]
      exact refines.ordered
    · intro r member
      rw [advances.ranges] at member
      have := refines.inside r member
      rw [total]
      omega
    · intro i least most
      rw [total] at most
      rw [advances.ranges]
      by_cases below : i < o.cells.length
      · rw [old below]
        exact refines.marks i least below
      · grind
    · rw [advances.pending, invisibleOverlap, advances.ranges, advances.flushed, advances.written, refines.flushed,
        written, counted]

/-- The loop over the hidden ranges emits the visible cells of the span. -/
theorem visibleLoop_eq {cells : List (UInt8 × Bool)} (tracks : Tracks w (cells.map Prod.fst)) {end_ : Nat}
    (inside : end_ ≤ cells.length) {ranges : List (Nat × Nat)} {cursor : Nat} (start : cursor ≤ end_)
    (ordered : Ordered ranges)
    (marks : ∀ i, cursor ≤ i → i < end_ → (shown cells i = false ↔ Covers ranges i))
    (within : ∀ i, cursor ≤ i → i < end_ → shown cells i = true → cells.length ≤ i + w.dictSize) :
    w.visibleLoop end_ ranges cursor =
      .ok (visible (slice cursor end_ cells), (visible (slice cursor end_ cells)).length) := by
  -- a span from the cursor on that no range covers
  have plain {cursor upTo : Nat} (some : cursor < upTo) (most : upTo ≤ end_)
      (clear : ∀ i, cursor ≤ i → i < upTo → shown cells i = true) (near : cells.length ≤ cursor + w.dictSize) :
      w.writeRangeToWriter cursor (upTo - cursor) = .ok (visible (slice cursor upTo cells)) ∧
        (visible (slice cursor upTo cells)).length = upTo - cursor := by
    have bytes : (cells.map Prod.fst).length = cells.length := length_map _
    rw [visible_slice_of_shown clear]
    exact ⟨writeRangeToWriter_eq tracks some.le (by omega) fun _ => by omega, length_slice (by omega)⟩
  have finish {cursor : Nat} (clear : ∀ i, cursor ≤ i → i < end_ → shown cells i = true)
      (near : ∀ i, cursor ≤ i → i < end_ → shown cells i = true → cells.length ≤ i + w.dictSize) :
      w.visibleTail end_ cursor =
        .ok (visible (slice cursor end_ cells), (visible (slice cursor end_ cells)).length) := by
    unfold visibleTail
    split_ifs with some
    · obtain ⟨emitted, size⟩ := plain some le_rfl clear (near cursor le_rfl some (clear cursor le_rfl some))
      rw [emitted, size]
      rfl
    · have empty : slice cursor end_ cells = [] := by simp [slice, Nat.sub_eq_zero_of_le (Nat.not_lt.mp some)]
      rw [empty]
      rfl
  induction ranges generalizing cursor with
  | nil =>
    refine finish (fun i least most => ?_) within
    have covered := (marks i least most).not
    rw [Bool.not_eq_false] at covered
    exact covered.mpr (by rintro ⟨r, member, _⟩; cases member)
  | cons r rest ih =>
    obtain ⟨invStart, invLen⟩ := r
    have later := (pairwise_cons.mp ordered).2
    have clearBefore {i : Nat} (least : cursor ≤ i) (most : i < end_) (below : i < invStart) : shown cells i = true := by
      rw [← Bool.not_eq_false, marks i least most, covers_cons]
      rintro (here | there)
      · dsimp only at here
        omega
      · exact ordered.not_covers_before (show i < invStart + invLen by omega) there
    rw [visibleLoop]
    dsimp only
    split
    · rename_i passed
      refine ih start later (fun i least most => ?_) within
      rw [marks i least most, covers_cons]
      exact or_iff_right (by dsimp only; omega)
    split
    · rename_i beyond
      exact finish (fun i least most => clearBefore least most (by omega)) within
    · rename_i reaches starts
      generalize resume : max cursor _ = next
      have rest_eq := ih (show next ≤ end_ by omega) later
        (fun i least most => by
          rw [marks i (by omega) most, covers_cons]
          exact or_iff_right (by dsimp only; omega))
        (fun i least most => within i (by omega) most)
      have hidden (a : Nat) (from_ : cursor ≤ a) (start : invStart ≤ a) : visible (slice a next cells) = [] := by
        refine visible_slice_of_hidden fun i least below => ?_
        rw [marks i (by omega) (by omega), covers_cons]
        exact Or.inl ⟨by dsimp only; omega, by dsimp only; omega⟩
      split_ifs with gap
      · have first : min invStart end_ = invStart := by omega
        obtain ⟨emitted, size⟩ := plain gap (by omega) (fun i least below => clearBefore least (by omega) below)
          (within cursor le_rfl (by omega) (clearBefore le_rfl (by omega) gap))
        have parts : visible (slice cursor end_ cells) =
            visible (slice cursor invStart cells) ++ visible (slice next end_ cells) := by
          rw [visible_slice_append (show cursor ≤ invStart by omega) (show invStart ≤ end_ by omega),
            visible_slice_append (show invStart ≤ next by omega) (show next ≤ end_ by omega),
            hidden invStart (by omega) le_rfl, nil_append]
        rw [first, emitted, rest_eq, parts, length_append, size]
        rfl
      · have parts : visible (slice cursor end_ cells) = visible (slice next end_ cells) := by
          rw [visible_slice_append (show cursor ≤ next by omega) (show next ≤ end_ by omega),
            hidden cursor le_rfl (by omega), nil_append]
        rw [rest_eq, parts]

section
variable (refines : Refines w o)
include refines

/-- Moving the border keeps the ranges that reach past it. -/
theorem Refines.settle {target : Nat} (least : o.flushed ≤ target)
    (most : target ≤ o.cells.length) : Refines (w.settle target) { o with flushed := target } := by
  have kept : (w.settle target).invisibleRanges = w.invisibleRanges.filter fun r => r.1 + r.2 > target := rfl
  refine ⟨⟨⟨refines.tracks.positive, refines.tracks.allocated, refines.tracks.pos, refines.tracks.done,
    refines.tracks.holds⟩, refines.tracks.written⟩, rfl, most, ?_, ?_, ?_, rfl⟩
  · rw [kept]
    exact refines.ordered.filter _
  · rw [kept]
    intro r member
    exact refines.inside r (mem_filter.mp member).1
  · intro i from_ below
    rw [refines.marks i (least.trans from_) below, kept]
    constructor
    · rintro ⟨r, member, bounds⟩
      dsimp only at from_
      exact ⟨r, mem_filter.mpr ⟨member, decide_eq_true (by omega)⟩, bounds⟩
    · rintro ⟨r, member, bounds⟩
      exact ⟨r, (mem_filter.mp member).1, bounds⟩

theorem writeVisibleSpan_eq {target : Nat} (start : o.flushed ≤ target)
    (most : target ≤ o.cells.length)
    (within : o.Within w.dictSize target) :
    w.writeVisibleSpan w.totalFlushed target =
      .ok (visible (slice o.flushed target o.cells), (visible (slice o.flushed target o.cells)).length) := by
  rw [writeVisibleSpan, refines.flushed]
  exact visibleLoop_eq refines.tracks most start refines.ordered
    (fun i least below => refines.marks i least (by omega)) (fun i least below => within i below least)

/-- The running total counts what is still to be emitted. -/
theorem Refines.unflushedBytes_eq :
    w.unflushedBytes = (visible (slice o.flushed o.cells.length o.cells)).length := by
  have border := refines.border
  have hidden : (Finset.Ico o.flushed o.cells.length).filter (fun i => ¬ shown o.cells i = true) =
      (Finset.Ico o.flushed o.cells.length).filter (Covers w.invisibleRanges) := by
    refine Finset.filter_congr fun i member => ?_
    rw [Finset.mem_Ico] at member
    rw [Bool.not_eq_true, refines.marks i member.1 member.2]
  have seen := length_filter_slice Prod.snd border (le_refl o.cells.length)
  have both := Finset.card_filter_add_card_filter_not (s := Finset.Ico o.flushed o.cells.length)
    (fun i => shown o.cells i = true)
  rw [hidden, card_covered refines.ordered, Nat.card_Ico] at both
  unfold unflushedBytes visible
  rw [length_map, seen, refines.pending, invisibleOverlap, refines.flushed, refines.written]
  unfold overlap
  unfold shown at both
  omega

theorem Refines.unflushedBytes_le (within : o.Within w.dictSize o.cells.length) :
    w.unflushedBytes ≤ w.dictSize := by
  rw [refines.unflushedBytes_eq, visible, length_map,
    length_filter_slice Prod.snd refines.border (le_refl o.cells.length)]
  calc ((Finset.Ico o.flushed o.cells.length).filter fun i => o.cells[i]?.any Prod.snd = true).card
      ≤ (Finset.Ico (o.cells.length - w.dictSize) o.cells.length).card := by
        refine Finset.card_le_card fun i member => ?_
        obtain ⟨bounds, seen⟩ := Finset.mem_filter.mp member
        rw [Finset.mem_Ico] at bounds ⊢
        have := within i bounds.2 bounds.1 seen
        omega
    _ ≤ w.dictSize := by
        rw [Nat.card_Ico]
        omega

theorem flushToWriter_eq (within : o.Within w.dictSize o.cells.length) :
    w.flushToWriter = .ok (visible (slice o.flushed o.cells.length o.cells),
      (visible (slice o.flushed o.cells.length o.cells)).length, w.settle o.cells.length) := by
  have count := refines.unflushedBytes_eq
  have most := refines.unflushedBytes_le within
  unfold flushToWriter
  dsimp only
  split
  · rename_i none
    rw [count, length_eq_zero_iff] at none
    rw [none, refines.written]
    rfl
  rw [if_neg (by omega), refines.written, writeVisibleSpan_eq refines refines.border le_rfl within, ← count]
  rfl

theorem flushVisibleUntil_eq {upTo : Nat} (within : o.Within w.dictSize (min upTo o.cells.length)) :
    w.flushVisibleUntil upTo = .ok (visible (slice o.flushed (min upTo o.cells.length) o.cells),
      (visible (slice o.flushed (min upTo o.cells.length) o.cells)).length,
      if min upTo o.cells.length ≤ o.flushed then w else w.settle (min upTo o.cells.length)) := by
  unfold flushVisibleUntil
  dsimp only
  rw [refines.written, refines.flushed]
  split_ifs with behind
  · have empty : slice o.flushed (min upTo o.cells.length) o.cells = [] := by
      simp [slice, Nat.sub_eq_zero_of_le behind]
    rw [empty]
    rfl
  · have span := writeVisibleSpan_eq refines (by omega) (Nat.min_le_right _ _) within
    rw [refines.flushed] at span
    rw [span]
    rfl

/-- One call: the window emits what the unbounded output emits and goes on refining it. -/
theorem apply_refines {op : WindowOp} (legal : Legal w.dictSize op o) :
    ∃ w', w.apply op = .ok ((o.apply w.dictSize op).1, w') ∧ Refines w' (o.apply w.dictSize op).2 ∧
      w'.dictSize = w.dictSize := by
  have tracks := refines.tracks
  have put {w' : Window} {bytes : List UInt8} (stored : Tracks w' (o.bytes ++ bytes) ∧ Advances bytes.length w w')
      (count : Nat) (all : bytes.length ≤ count) : Refines w' (o.push count bytes) ∧ w'.dictSize = w.dictSize := by
    have pushed := refines.push count stored.1 stored.2
    rw [truncate_all all] at pushed
    exact ⟨pushed, stored.2.dictSize⟩
  have matching (distance length visibleLen : Nat) (positive : 1 ≤ distance) :
      Refines (w.copyWithVisibleLen distance length visibleLen)
        (o.push visibleLen (o.matched w.dictSize distance length)) ∧
      (w.copyWithVisibleLen distance length visibleLen).dictSize = w.dictSize := by
    obtain ⟨stored, advances⟩ := copyAdvance_tracks tracks positive length
    have parts : appendMatch w.dictSize distance length o.bytes = o.bytes ++ o.matched w.dictSize distance length :=
      appendMatch_eq_append _ _ _ _
    have size : (o.matched w.dictSize distance length).length = length := by
      rw [Output.matched, length_drop, appendMatch_length, Nat.add_sub_cancel_left]
    rw [parts] at stored
    have pushed := refines.push visibleLen stored (by rw [size]; exact advances)
    rw [size] at pushed
    refine ⟨pushed, ?_⟩
    rw [copyWithVisibleLen, truncate_dictSize]
    exact advances.dictSize
  cases op with
  | putByte b => exact ⟨_, rfl, put (putByte_tracks tracks b) 1 le_rfl⟩
  | putBytes bytes => exact ⟨_, rfl, put (putBytes_tracks tracks bytes) _ le_rfl⟩
  | putLiteralBatch bytes n =>
    have size : (bytes.toList.take n).length = n := by
      rw [length_take, bytes.length_toList, Nat.min_eq_left legal.2]
    have stored := putLiteralBatch_tracks tracks bytes legal.2
    refine ⟨_, rfl, put ⟨stored.1, ?_⟩ n size.le⟩
    rw [size]
    exact stored.2
  | copy _ length => exact ⟨_, rfl, matching _ length length legal⟩
  | copyWithVisibleLen _ length visibleLen => exact ⟨_, rfl, matching _ length _ legal⟩
  | flushToWriter =>
    refine ⟨w.settle o.cells.length, by rw [Window.apply, flushToWriter_eq refines legal]; rfl, ?_, rfl⟩
    change Refines _ { o with flushed := max o.flushed o.cells.length }
    rw [Nat.max_eq_right refines.border]
    exact refines.settle refines.border le_rfl
  | flushVisibleUntil upTo =>
    refine ⟨_, by rw [Window.apply, flushVisibleUntil_eq refines legal]; rfl, ?_, ?_⟩
    · change Refines _ { o with flushed := max o.flushed _ }
      split
      · simp_all
      · rw [Nat.max_eq_right (by omega)]
        exact refines.settle (by omega) (Nat.min_le_right _ _)
    · split <;> rfl

theorem run_refines {ops : List WindowOp} (legal : LegalRun w.dictSize ops o) :
    ∃ w', w.run ops = .ok ((o.run w.dictSize ops).1, w') ∧ Refines w' (o.run w.dictSize ops).2 := by
  induction ops generalizing w o with
  | nil => exact ⟨w, rfl, refines⟩
  | cons op ops ih =>
    obtain ⟨w₁, step, refines₁, same⟩ := apply_refines refines legal.1
    obtain ⟨w₂, rest, refines₂⟩ := ih refines₁ (by rw [same]; exact legal.2)
    rw [same] at rest refines₂
    exact ⟨w₂, by rw [run, step]; simp only [bind, Except.bind, rest, pure, Except.pure]; rfl, refines₂⟩

end

theorem Refines.of_rewind (tracks : Tracks w []) (fresh : w = w.rewind) : Refines w ⟨[], 0⟩ := by
  rw [fresh] at tracks ⊢
  exact ⟨tracks, rfl, le_rfl, List.Pairwise.nil, nofun, nofun, rfl⟩

/-- A window, new or reused with whatever its cells held, emits the unbounded output: no call fails,
each flush emits the visible cells it moves the border over, and together they are the visible cells
before the last border. -/
theorem run_emits_output {allocates : Nat → Bool} {dictSize : Nat} {w : Window}
    (fresh : tryNew allocates dictSize = .ok w ∨ ∃ old : Window, old.resetForReuse allocates dictSize = .ok w)
    (ops : List WindowOp) (legal : LegalRun dictSize ops ⟨[], 0⟩) :
    ∃ w', w.run ops = .ok ((Output.run dictSize ops ⟨[], 0⟩).1, w') ∧
      (Output.run dictSize ops ⟨[], 0⟩).1.flatten = visible
        ((Output.run dictSize ops ⟨[], 0⟩).2.cells.take (Output.run dictSize ops ⟨[], 0⟩).2.flushed) := by
  obtain ⟨tracks, rfl, rewound⟩ : Tracks w [] ∧ w.dictSize = dictSize ∧ w = w.rewind := by
    rcases fresh with made | ⟨old, made⟩
    · exact tryNew_tracks made
    · exact resetForReuse_tracks made
  obtain ⟨w', run, _⟩ := run_refines (Refines.of_rewind tracks rewound) legal
  have start : (⟨[], 0⟩ : Output).flushed ≤ (⟨[], 0⟩ : Output).cells.length := le_rfl
  exact ⟨w', run, (Output.run_emits w.dictSize ops start).emitted⟩

/-- A window of four cells that held sevens: a match that wraps, one before the first byte and one cut
short by its member's end. -/
theorem run_emits_output_reused :
    ∃ w w', (⟨fun _ => 7, 6, 6, 5, true, 11, 11, [], 0⟩ : Window).resetForReuse (fun _ => true) 4 = .ok w ∧
      w.run [.copy 1 1, .putBytes [1, 2], .flushToWriter, .copyWithVisibleLen 2 3 1, .flushToWriter] =
        .ok ([[], [], [0, 1, 2], [], [1]], w') := by
  have made : (⟨fun _ => 7, 6, 6, 5, true, 11, 11, [], 0⟩ : Window).resetForReuse (fun _ => true) 4 =
      .ok ⟨fun _ => 7, 6, 4, 0, false, 0, 0, [], 0⟩ := rfl
  obtain ⟨w', run, _⟩ := run_emits_output (Or.inr ⟨_, made⟩)
    [.copy 1 1, .putBytes [1, 2], .flushToWriter, .copyWithVisibleLen 2 3 1, .flushToWriter] (by decide)
  exact ⟨_, w', made, run⟩

end Window
end Rarpar.Unrar

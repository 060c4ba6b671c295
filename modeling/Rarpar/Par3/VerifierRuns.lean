import Rarpar.Par3.VerifierReads

namespace Rarpar.Par3.StreamingVerifier

open ListedFile List Nat StreamingVerifier

/-! What a run of reads of the content comes to, in any order. -/

variable {source : VerifierSource} {verifier : StreamingVerifier} {content bytes : List UInt8} {offset : Nat}
  {extent : FileExtent}
  {slot : ExtentVerdict × Option (Frontier UInt8)} {fed : Nat → Prop}

/-! ### One extent -/

/-- The read meets the extent. -/
def Meets (offset : Nat) (bytes : List UInt8) (extent : FileExtent) : Prop :=
  extent.start < offset + bytes.length ∧ offset < extent.stop

/-- An extent's share of a read is a piece of the extent. -/
theorem part_share (part : Frontier.Part content offset bytes) (order : extent.start ≤ extent.stop) (meets : Meets offset bytes extent) :
    Frontier.Part (extent.bytes content) (max extent.start offset - extent.start) (share offset bytes extent) ∧
      (share offset bytes extent).length = min extent.stop (offset + bytes.length) - max extent.start offset := by
  obtain ⟨begins, ends⟩ := meets
  have inside := part.inside
  have cut : share offset bytes extent = Ranges.slice _ _ content :=
    part_slice part (le_max_right _ _) (min_le_right _ _)
  have length : (share offset bytes extent).length = min extent.stop (offset + bytes.length) - max extent.start offset := by
    rw [cut, Ranges.length_slice (by omega)]
  refine ⟨⟨?_, ?_⟩, length⟩
  · rw [length, FileExtent.bytes, Ranges.slice, length_take, length_drop]
    omega
  · rw [length, cut, FileExtent.bytes, Ranges.slice_slice (by omega)]
    congr 1 <;> omega

/-- An extent is settled by its own bytes, and its frontier holds parts of them. -/
structure Sound (fingerprint : Hash) (content : List UInt8) (extent : FileExtent) (slot : ExtentVerdict × Option (Frontier UInt8)) : Prop where
  unprotected : extent.isUnprotected = true → slot.1 = .unprotected
  intact : slot.1 = .intact → extent.stop ≤ content.length ∧ extent.expected fingerprint = some (fingerprint (extent.bytes content))
  damaged : slot.1 = .damaged → extent.stop ≤ content.length ∧
    ∃ expected, extent.expected fingerprint = some expected ∧ fingerprint (extent.bytes content) ≠ expected
  front : ∀ front, slot.2 = some front → front.Of (extent.bytes content) ∧ front.next ≠ extent.stop - extent.start

variable {fingerprint : Hash}

theorem sound_settled (protects : extent.isUnprotected = false) (long : extent.start < extent.stop)
    {front : Frontier UInt8} (good : front.Of (extent.bytes content)) (full : front.next = extent.stop - extent.start) :
    Sound fingerprint content extent (settled fingerprint extent front.taken, none) := by
  have inside := good.inside
  have length : (extent.bytes content).length ≤ content.length - extent.start := by
    rw [FileExtent.bytes, Ranges.slice, length_take, length_drop]
    exact min_le_right _ _
  have whole : front.taken = extent.bytes content := by
    have short : (extent.bytes content).length ≤ front.next := by
      rw [FileExtent.bytes, Ranges.slice, full]
      exact length_take_le ..
    rw [good.taken, take_of_length_le short]
  rw [whole, settled]
  refine ⟨fun unprotected => absurd (protects.symm.trans unprotected) Bool.false_ne_true, fun intact => ⟨by omega, ?_⟩,
    fun damaged => ⟨by omega, ?_⟩, by simp⟩
  · grind
  · grind

section
variable (sound : Sound fingerprint content extent slot)
include sound

theorem Sound.protects (unknown : slot.1 = .unknown) : extent.isUnprotected = false :=
  Bool.eq_false_iff.mpr fun unprotected => by cases (sound.unprotected unprotected).symm.trans unknown

theorem Sound.front_getD : (slot.2.getD .new).Of (extent.bytes content) := by
  cases front : slot.2 with
  | none => exact Frontier.of_new _
  | some front' => exact (sound.front front' front).1

theorem Sound.touch
    (long : extent.isUnprotected = false → extent.start < extent.stop) (part : Frontier.Part (extent.bytes content) offset bytes)
    (nonempty : slot.1 = .unknown → bytes ≠ []) : Sound fingerprint content extent (touch fingerprint extent offset bytes slot) := by
  obtain ⟨verdict, front⟩ := slot
  cases verdict with
  | intact | damaged | unprotected => exact sound
  | unknown =>
    have protects := sound.protects rfl
    have good := sound.front_getD
    have unfinished : (front.getD .new).next ≠ extent.stop - extent.start := by
      cases front with
      | none => exact (Nat.sub_pos_of_lt (long protects)).ne
      | some front' => exact (sound.front front' rfl).2
    have open' (front : Option _)
        (good : ∀ front', front = some front' → front'.Of (extent.bytes content) ∧ front'.next ≠ extent.stop - extent.start) :
        Sound fingerprint content extent (.unknown, front) :=
      ⟨fun unprotected => absurd (protects.symm.trans unprotected) Bool.false_ne_true, by simp, by simp, good⟩
    rw [touch]
    dsimp only
    split_ifs with behind meets full
    · exact open' none (by simp)
    · refine open' _ fun front' same => ?_
      cases same
      exact ⟨(good.hold part (nonempty rfl) behind (Bool.eq_false_iff.mpr meets)).1, unfinished⟩
    · exact sound_settled protects (long protects) (good.advance part (not_lt.mp behind)).1 full
    · refine open' _ fun front' same => ?_
      cases same
      exact ⟨(good.advance part (not_lt.mp behind)).1, full⟩

/-- No bytes at the frontier change nothing. -/
theorem Sound.touch_nil (clear : slot.1 = .unknown → ∃ front, slot.2 = some front ∧ offset ≤ front.next) :
    StreamingVerifier.touch fingerprint extent offset [] slot = slot := by
  obtain ⟨verdict, front?⟩ := slot
  cases verdict with
  | intact | damaged | unprotected => rfl
  | unknown =>
    obtain ⟨front, here, reaches⟩ := clear rfl
    obtain rfl : front? = some front := here
    obtain ⟨good, unfinished⟩ := sound.front front rfl
    rw [StreamingVerifier.touch, Option.getD_some, if_neg (not_lt.mpr reaches), good.advance_nil]
    exact if_neg unfinished

end

/-- Of an extent that is not settled, the frontier holds just the bytes that were fed. -/
def Complete (fingerprint : Hash) (extent : FileExtent) (fed : Nat → Prop) (slot : ExtentVerdict × Option (Frontier UInt8)) : Prop :=
  slot.1 = .unknown → extent.expected fingerprint ≠ none →
    (slot.2.getD .new).next < extent.stop - extent.start ∧
      ∀ p, extent.start ≤ p → p < extent.stop → (fed p ↔ (slot.2.getD .new).Holds (p - extent.start))

theorem Complete.touch (complete : Complete fingerprint extent fed slot) (sound : Sound fingerprint content extent slot)
    (part : Frontier.Part (extent.bytes content) offset bytes) (nonempty : bytes ≠ [])
    (new : ∀ p, offset ≤ p → p < offset + bytes.length → ¬ fed (extent.start + p)) :
    Complete fingerprint extent (fun p => fed p ∨ offset ≤ p - extent.start ∧ p - extent.start < offset + bytes.length)
      (touch fingerprint extent offset bytes slot) := by
  obtain ⟨verdict, front⟩ := slot
  cases verdict with
  | intact | damaged | unprotected =>
    intro unknown
    cases unknown
  | unknown =>
    intro unknown has
    obtain ⟨short, holds⟩ := complete rfl has
    have good : (front.getD .new).Of _ := sound.front_getD
    have length : (extent.bytes content).length ≤ extent.stop - extent.start := length_take_le ..
    have apart : (front.getD .new).overlaps offset bytes = false := by
      refine good.overlaps_eq_false nonempty fun p first last held => new p first last ?_
      have inside := part.inside
      refine (holds _ (le_add_right _ _) (by omega)).mpr ?_
      rwa [Nat.add_sub_cancel_left]
    rw [touch] at unknown ⊢
    dsimp only at unknown holds short ⊢
    split_ifs at unknown ⊢ with behind meets full
    · exact absurd (apart.symm.trans meets) Bool.false_ne_true
    · obtain ⟨-, held⟩ := good.hold part nonempty behind apart
      refine ⟨short, fun p first last => ?_⟩
      rw [Option.getD_some, held, holds p first last]
    · dsimp only at unknown
      unfold settled at unknown
      cases expected : extent.expected fingerprint with
      | none => exact absurd expected has
      | some value =>
        grind
    · obtain ⟨good', held⟩ := good.advance part (not_lt.mp behind)
      have inside := good'.inside
      refine ⟨by rw [Option.getD_some]; omega, fun p first last => ?_⟩
      rw [Option.getD_some, held, holds p first last]

/-! ### The whole file -/

/-- In order, what is hashed are the protected bytes up to where the last read ended, and they were all fed. -/
structure WholeSound (file : ListedFile) (content : List UInt8) (fed : Nat → Prop) (verifier : StreamingVerifier) : Prop where
  whole : verifier.whole = file.protectedBytes content 0 verifier.wholeNext
  fed : ∀ p < verifier.wholeNext, file.protects p → fed p

/-- The byte is one of a read. -/
def Fed (reads : List (Nat × List UInt8)) (p : Nat) : Prop := ∃ read ∈ reads, read.1 ≤ p ∧ p < read.1 + read.2.length

/-- Empty reads feed nothing. -/
theorem fed_filter (reads : List (Nat × List UInt8)) : Fed (reads.filter fun read => read.2 ≠ []) = Fed reads := by
  funext p
  refine propext ⟨?_, ?_⟩
  · rintro ⟨read, member, range⟩
    exact ⟨read, mem_of_mem_filter member, range⟩
  · rintro ⟨read, member, range⟩
    have nonempty : read.2 ≠ [] := length_pos_iff.mp (by omega)
    exact ⟨read, mem_filter.mpr ⟨member, decide_eq_true nonempty⟩, range⟩

/-- A read that is not empty, or that neither moves the place where the whole-file hash goes on nor lies inside an
unsettled extent behind its frontier. -/
def Harmless (source : VerifierSource) (verifier : StreamingVerifier) (offset : Nat) (bytes : List UInt8) : Prop :=
  bytes ≠ [] ∨ (verifier.wholeOrdered = true → verifier.wholeNext = offset) ∧
    ∀ index extent, source.file.extents[index]? = some extent → extent.start < offset → offset < extent.stop →
      verifier.verdicts index = .unknown → ∃ front, verifier.partials index = some front ∧ offset - extent.start ≤ front.next

theorem WholeSound.feed {after : StreamingVerifier} (sound : verifier.wholeOrdered = true → WholeSound source.file content fed verifier)
    (nonempty : bytes ≠ []) (order : after.wholeOrdered = (keepOrder source offset bytes verifier).wholeOrdered)
    (hashed : if after.wholeOrdered then after.whole = verifier.whole ++ source.file.protectedBytes content offset (offset + bytes.length) ∧
        after.wholeNext = offset + bytes.length
      else after.whole = verifier.whole ∧ after.wholeNext = verifier.wholeNext) :
    after.wholeOrdered = true → WholeSound source.file content (fun p => fed p ∨ offset ≤ p ∧ p < offset + bytes.length) after := by
  intro kept
  rw [if_pos kept] at hashed
  rw [kept] at order
  unfold keepOrder at order
  split_ifs at order with lost
  -- the bytes between the last read and this one are unprotected
  have between : source.file.unprotectedBetween verifier.wholeNext offset = true := by
    grind
  obtain ⟨before, -, free⟩ := unprotectedBetween_iff.mp between
  obtain ⟨whole, old⟩ := sound order.symm
  refine ⟨?_, fun p early protects => ?_⟩
  · rw [hashed.1, hashed.2, whole, protectedBytes_append (zero_le offset) (le_add_right offset bytes.length),
      protectedBytes_append (zero_le verifier.wholeNext) before, protectedBytes_eq_nil free, append_nil]
  · grind

/-! ### One read -/

/-- The extents and the whole file after reads of these bytes. -/
structure Reached (source : VerifierSource) (content : List UInt8) (fed : Nat → Prop) (verifier : StreamingVerifier) : Prop where
  sound : ∀ index extent, source.file.extents[index]? = some extent → Sound source.fingerprint content extent (verifier.slot index)
  whole : verifier.wholeOrdered = true → WholeSound source.file content fed verifier

/-- No byte of the content is fed twice, so nothing is dropped. -/
def Settled (source : VerifierSource) (fed : Nat → Prop) (verifier : StreamingVerifier) : Prop :=
  ∀ index extent, source.file.extents[index]? = some extent → Complete source.fingerprint extent fed (verifier.slot index)

theorem checkRead_eq_ok (length : source.length = content.length) (width : content.length < 2 ^ 64) (part : Frontier.Part content offset bytes) :
    checkRead source offset bytes = .ok () := by
  have inside := part.inside
  rw [checkRead, if_neg (by omega), if_neg (by omega)]

variable (granting : Granting source) (length : source.length = content.length) (width : content.length < 2 ^ 64)

include granting length width

theorem Reached.feed (reached : Reached source content fed verifier) (part : Frontier.Part content offset bytes)
    (short : bytes.length < 2 ^ 63) (nonempty : bytes ≠ []) :
    ∃ after, feed source offset bytes verifier = .ok after ∧
      Reached source content (fun p => fed p ∨ offset ≤ p ∧ p < offset + bytes.length) after ∧
      (Settled source fed verifier → (∀ p, offset ≤ p → p < offset + bytes.length → ¬ fed p) →
        Settled source (fun p => fed p ∨ offset ≤ p ∧ p < offset + bytes.length) after) := by
  obtain ⟨after, ran, slots, order, hashed⟩ := feed_spec _ granting short part (checkRead_eq_ok length width part)
  have long := length_pos_iff.mpr nonempty
  refine ⟨after, ran, ⟨fun index extent found => ?_, WholeSound.feed reached.whole nonempty order hashed⟩,
    fun settled new index extent found => ?_⟩
  · have member := mem_of_getElem? found
    have tile := source.file.tiles.stop_le.2 extent member
    have sound := reached.sound index extent found
    rw [slots index extent found, reach]
    split_ifs with meets
    · obtain ⟨piece, size⟩ := part_share part tile.2.1 meets
      refine sound.touch (source.file.long extent member) piece fun unknown => ?_
      obtain ⟨begins, ends⟩ := meets
      have inside := source.file.long extent member (sound.protects unknown)
      exact length_pos_iff.mp (by omega)
    · exact sound
  · have member := mem_of_getElem? found
    have tile := source.file.tiles.stop_le.2 extent member
    have complete := settled index extent found
    rw [slots index extent found, reach]
    intro unknown has
    have protects : extent.isUnprotected = false :=
      Bool.eq_false_iff.mpr fun unprotected => has (FileExtent.expected_unprotected unprotected)
    have inside := source.file.long extent member protects
    split_ifs at unknown ⊢ with meets
    · obtain ⟨piece, size⟩ := part_share part tile.2.1 meets
      have grown := complete.touch (reached.sound index extent found) piece (length_pos_iff.mp (by omega))
        fun p first last => new _ (by omega) (by omega)
      obtain ⟨next, holds⟩ := grown unknown has
      refine ⟨next, fun p first last => Iff.trans ?_ (holds p first last)⟩
      have range : offset ≤ p ∧ p < offset + bytes.length ↔
          max extent.start offset - extent.start ≤ p - extent.start ∧
            p - extent.start < max extent.start offset - extent.start + (share offset bytes extent).length := by omega
      exact or_congr_right range
    · obtain ⟨next, holds⟩ := complete unknown has
      refine ⟨next, fun p first last => Iff.trans (or_iff_left fun new => meets ⟨by omega, by omega⟩) (holds p first last)⟩

/-! ### Empty reads -/

omit granting length width

/-- The same for everything that evidence is made of. -/
structure Same (source : VerifierSource) (verifier other : StreamingVerifier) : Prop where
  slots : ∀ index extent, source.file.extents[index]? = some extent → verifier.slot index = other.slot index
  whole : verifier.whole = other.whole
  wholeNext : verifier.wholeNext = other.wholeNext
  wholeOrdered : verifier.wholeOrdered = other.wholeOrdered

theorem Same.trans {middle other : StreamingVerifier} (first : Same source verifier middle) (second : Same source middle other) :
    Same source verifier other :=
  ⟨fun index extent found => (first.slots index extent found).trans (second.slots index extent found), first.whole.trans second.whole,
    first.wholeNext.trans second.wholeNext, first.wholeOrdered.trans second.wholeOrdered⟩

theorem Reached.congr {other : StreamingVerifier} (reached : Reached source content fed other) (same : Same source verifier other) :
    Reached source content fed verifier where
  sound index extent found := same.slots index extent found ▸ reached.sound index extent found
  whole ordered := by
    obtain ⟨whole, fed⟩ := reached.whole (same.wholeOrdered ▸ ordered)
    rw [← same.wholeNext] at whole fed
    exact ⟨same.whole.trans whole, fed⟩

variable {other : StreamingVerifier} {reads : List (Nat × List UInt8)}

theorem Same.finish (same : Same source verifier other) : verifier.finish source = other.finish source := by
  have whole : wholeResult source verifier = wholeResult source other := by
    rw [wholeResult, wholeResult, same.whole, same.wholeNext, same.wholeOrdered]
  rw [StreamingVerifier.finish, StreamingVerifier.finish, whole]
  congr 1
  refine map_congr_left fun index member => ?_
  have inside := mem_range.mp member
  have slots := same.slots index _ (getElem?_eq_getElem inside)
  rw [show verifier.verdicts index = other.verdicts index from congrArg Prod.fst slots]

include granting length width

theorem Same.feed (same : Same source verifier other) (part : Frontier.Part content offset bytes)
    (short : bytes.length < 2 ^ 63) : ∃ after after', feed source offset bytes verifier = .ok after ∧
      feed source offset bytes other = .ok after' ∧ Same source after after' := by
  obtain ⟨after, ran, slots, order, hashed⟩ := feed_spec verifier granting short part (checkRead_eq_ok length width part)
  obtain ⟨after', ran', slots', order', hashed'⟩ := feed_spec other granting short part (checkRead_eq_ok length width part)
  have order : after.wholeOrdered = after'.wholeOrdered := by
    rw [order, order', keepOrder, keepOrder, same.wholeNext]
    split_ifs
    · rfl
    · exact same.wholeOrdered
  refine ⟨after, after', ran, ran', fun index extent found => ?_, ?_, ?_, order⟩
  · rw [slots index extent found, slots' index extent found, same.slots index extent found]
  · rw [order] at hashed
    split_ifs at hashed hashed'
    · rw [hashed.1, hashed'.1, same.whole]
    · rw [hashed.1, hashed'.1, same.whole]
  · rw [order] at hashed
    split_ifs at hashed hashed'
    · rw [hashed.2, hashed'.2]
    · rw [hashed.2, hashed'.2, same.wholeNext]

/-- An empty read that is harmless changes nothing. -/
theorem Reached.feed_nil (reached : Reached source content fed verifier) (part : Frontier.Part content offset [])
    (harmless : Harmless source verifier offset []) :
    ∃ after, StreamingVerifier.feed source offset [] verifier = .ok after ∧ Same source after verifier := by
  obtain ⟨after, ran, slots, order, hashed⟩ := feed_spec _ granting (by decide) part (checkRead_eq_ok length width part)
  obtain ⟨next, behind⟩ := harmless.resolve_left fun nonempty => nonempty rfl
  have order : after.wholeOrdered = verifier.wholeOrdered := by
    rw [order, keepOrder, if_neg fun lost => lost.1 rfl]
  refine ⟨after, ran, fun index extent found => ?_, ?_, ?_, order⟩
  · rw [slots index extent found, reach]
    split_ifs with meets
    · obtain ⟨begins, ends⟩ := meets
      have inside : extent.start < offset := begins
      have none : share offset [] extent = [] := eq_nil_of_length_eq_zero (le_zero.mp (length_share extent))
      rw [none]
      refine (reached.sound index extent found).touch_nil fun unknown => ?_
      obtain ⟨front, here, reaches⟩ := behind index extent found inside ends unknown
      exact ⟨front, here, by omega⟩
    · rfl
  · split_ifs at hashed
    · have none : source.file.protectedBytes content offset (offset + ([] : List UInt8).length) = [] :=
        protectedBytes_eq_nil fun p first (last : p < offset) => absurd last (not_lt.mpr first)
      rw [hashed.1, none, append_nil]
    · exact hashed.1
  · grind

/-! ### Runs -/

omit granting length width

/-- Every read of a run is harmless in the state it comes to. -/
def AllHarmless (source : VerifierSource) : StreamingVerifier → List (Nat × List UInt8) → Prop
  | _, [] => True
  | verifier, read :: rest => Harmless source verifier read.1 read.2 ∧
      ∀ next, feed source read.1 read.2 verifier = .ok next → AllHarmless source next rest

/-- Reads of the content at their places. -/
def TrueReads (content : List UInt8) (reads : List (Nat × List UInt8)) : Prop :=
  ∀ read ∈ reads, Frontier.Part content read.1 read.2 ∧ read.2.length < 2 ^ 63

/-- No two reads that are not empty overlap. -/
def Apart (reads : List (Nat × List UInt8)) : Prop :=
  reads.Pairwise fun read later => read.2 = [] ∨ later.2 = [] ∨ read.1 + read.2.length ≤ later.1 ∨ later.1 + later.2.length ≤ read.1

theorem initial_reached (source : VerifierSource) (content : List UInt8) : Reached source content (fun _ => False) (new source) := by
  refine ⟨fun index extent found => ?_, fun _ => ⟨rfl, by simp [new]⟩⟩
  have first : ((new source).slot index).1 = if extent.isUnprotected then .unprotected else .unknown := by
    rw [slot, new]
    dsimp only
    rw [found]
    rfl
  refine ⟨fun unprotected => ?_, fun intact => ?_, fun damaged => ?_, by simp [slot, new]⟩
  · rw [first, if_pos unprotected]
  · grind
  · grind

theorem initial_settled (source : VerifierSource) : Settled source (fun _ => False) (new source) := by
  intro index extent found unknown has
  have protects : extent.isUnprotected = false :=
    Bool.eq_false_iff.mpr fun unprotected => has (FileExtent.expected_unprotected unprotected)
  refine ⟨Nat.sub_pos_of_lt (source.file.long extent (mem_of_getElem? found) protects), fun p _ _ => ⟨nofun, ?_⟩⟩
  rintro (early | ⟨entry, member, -⟩)
  · exact absurd early (not_lt_zero _)
  · exact absurd member not_mem_nil

include granting length width

theorem Reached.feeds (reached : Reached source content fed verifier) (genuine : TrueReads content reads)
    (nonempty : ∀ read ∈ reads, read.2 ≠ []) : ∃ after, feeds source reads verifier = .ok after ∧
      Reached source content (fun p => fed p ∨ Fed reads p) after ∧
      (Settled source fed verifier → Apart reads → (∀ p, Fed reads p → ¬ fed p) →
        Settled source (fun p => fed p ∨ Fed reads p) after) := by
  induction reads generalizing verifier fed with
  | nil =>
    have same : (fun p => fed p ∨ Fed [] p) = fed := funext fun p => propext (or_iff_left fun ⟨_, member, _⟩ => nomatch member)
    rw [same]
    exact ⟨verifier, rfl, reached, fun settled _ _ => settled⟩
  | cons read rest ih =>
    obtain ⟨⟨part, short⟩, genuine⟩ := forall_mem_cons.mp genuine
    obtain ⟨here, others⟩ := forall_mem_cons.mp nonempty
    obtain ⟨next, ran, reached', settles⟩ := reached.feed granting length width part short here
    obtain ⟨after, rans, reached'', settles'⟩ := ih reached' genuine others
    have same : (fun p => (fed p ∨ read.1 ≤ p ∧ p < read.1 + read.2.length) ∨ Fed rest p) = fun p => fed p ∨ Fed (read :: rest) p := by
      grind [Fed]
    rw [same] at reached'' settles'
    refine ⟨after, ?_, reached'', fun settled apart new => ?_⟩
    · rw [StreamingVerifier.feeds, ran]
      exact rans
    · obtain ⟨first, apart⟩ := pairwise_cons.mp apart
      refine settles' (settles settled fun p first last => new p ⟨read, mem_cons_self, first, last⟩) apart fun p fedLater fedEarlier => ?_
      · obtain ⟨other, member, range⟩ := fedLater
        rcases fedEarlier with old | range'
        · exact new p ⟨other, mem_cons_of_mem read member, range⟩ old
        · grind

/-- The run without its empty reads gives the same evidence. -/
theorem Reached.feeds_nonempty (reached : Reached source content fed other)
    (same : Same source verifier other) (genuine : TrueReads content reads) (harmless : AllHarmless source verifier reads) :
    ∃ after after', StreamingVerifier.feeds source reads verifier = .ok after ∧
      StreamingVerifier.feeds source (reads.filter fun read => read.2 ≠ []) other = .ok after' ∧ Same source after after' := by
  induction reads generalizing verifier other fed with
  | nil => exact ⟨verifier, other, rfl, rfl, same⟩
  | cons read rest ih =>
    obtain ⟨⟨part, short⟩, genuine⟩ := forall_mem_cons.mp genuine
    obtain ⟨here, later⟩ := harmless
    rw [StreamingVerifier.feeds]
    by_cases nonempty : read.2 = []
    · obtain ⟨next, ran, still⟩ := (reached.congr same).feed_nil granting length width (nonempty ▸ part) (nonempty ▸ here)
      rw [← nonempty] at ran
      rw [ran, filter_cons_of_neg (by simpa using nonempty)]
      exact ih reached (still.trans same) genuine (later next ran)
    · obtain ⟨next, other', ran, ranOther, same'⟩ := same.feed granting length width part short
      obtain ⟨_, ran', reached', -⟩ := reached.feed granting length width part short nonempty
      cases ranOther.symm.trans ran'
      rw [ran, filter_cons_of_pos (by simpa using nonempty), StreamingVerifier.feeds, ranOther]
      exact ih reached' same' genuine (later next ran)

end Rarpar.Par3.StreamingVerifier

import Rarpar.Par3.StreamingVerifier

namespace Rarpar.Par3.StreamingVerifier
open List

/-! What one read does to each extent and to the hash of the whole file. -/

variable {source : VerifierSource} {verifier : StreamingVerifier} {extent : FileExtent} {index offset : Nat} {bytes : List UInt8}
  {run : Option (Nat × Nat)} {whole : List UInt8}

/-- The part of the state that belongs to one extent. -/
def slot (verifier : StreamingVerifier) (index : Nat) : ExtentVerdict × Option (Frontier UInt8) :=
  (verifier.verdicts index, verifier.partials index)

/-- The extent once its bytes are all hashed. -/
def settled (fingerprint : Hash) (extent : FileExtent) (hashed : List UInt8) : ExtentVerdict :=
  match extent.expected fingerprint with
  | none => .unknown
  | some expected => if fingerprint hashed = expected then .intact else .damaged

/-- The bytes of one extent, fed to its part of the state. -/
def touch (fingerprint : Hash) (extent : FileExtent) (offset : Nat) (bytes : List UInt8) :
    ExtentVerdict × Option (Frontier UInt8) → ExtentVerdict × Option (Frontier UInt8)
  | (.unknown, front) =>
    let front := front.getD .new
    if front.next < offset then (.unknown, if front.overlaps offset bytes then none else some (front.hold offset bytes))
    else
      let front := front.advance offset bytes
      if front.next = extent.stop - extent.start then (settled fingerprint extent front.taken, none) else (.unknown, some front)
  | done => done

/-- No reservation is refused. -/
def Granting (source : VerifierSource) : Prop := ∀ count cost, source.reserve count cost = true

/-- Everything but one extent's part is left as it is. -/
structure Keeps (index : Nat) (verifier after : StreamingVerifier) : Prop where
  others : ∀ other, other ≠ index → after.slot other = verifier.slot other
  whole : after.whole = verifier.whole
  wholeNext : after.wholeNext = verifier.wholeNext
  wholeOrdered : after.wholeOrdered = verifier.wholeOrdered

theorem Keeps.rfl : Keeps index verifier verifier := ⟨fun _ _ => Eq.refl _, Eq.refl _, Eq.refl _, Eq.refl _⟩

theorem keeps_setPartial (front : Option (Frontier UInt8)) : Keeps index verifier (verifier.setPartial index front) := by
  refine ⟨fun other apart => ?_, rfl, rfl, rfl⟩
  rw [slot, slot, setPartial]
  dsimp only
  rw [if_neg apart]

theorem keeps_setVerdict (verdict : ExtentVerdict) : Keeps index verifier (verifier.setVerdict index verdict) := by
  refine ⟨fun other apart => ?_, rfl, rfl, rfl⟩
  rw [slot, slot, setVerdict]
  dsimp only
  rw [if_neg apart]

theorem keeps_asked : Keeps index verifier verifier.asked := ⟨fun _ _ => rfl, rfl, rfl, rfl⟩

theorem Keeps.trans {middle after : StreamingVerifier} (first : Keeps index verifier middle) (second : Keeps index middle after) :
    Keeps index verifier after :=
  ⟨fun other apart => (second.others other apart).trans (first.others other apart), second.whole.trans first.whole,
    second.wholeNext.trans first.wholeNext, second.wholeOrdered.trans first.wholeOrdered⟩

theorem slot_setPartial (front : Option (Frontier UInt8)) : (verifier.setPartial index front).slot index = (verifier.verdicts index, front) := by
  rw [slot, setPartial]
  dsimp only
  rw [if_pos rfl]

section
variable (granting : Granting source) (short : bytes.length < 2 ^ 63)
include granting short

/-- An extent of unknown verdict is fed as `touch` says. -/
theorem feedFrontier_spec (unknown : verifier.verdicts index = .unknown)
    (front : Frontier UInt8) :
    ∃ fed refusal, feedFrontier source index extent offset bytes front verifier = (fed, refusal) ∧ Keeps index verifier fed ∧
      (if refusal.isSome then fed.verdicts index = .unknown ∧ touch source.fingerprint extent offset bytes (.unknown, some front) = (.unknown, none)
        else fed.slot index = touch source.fingerprint extent offset bytes (.unknown, some front)) := by
  rw [feedFrontier, touch, Option.getD_some, keepFragment]
  dsimp only
  split_ifs with behind meets long granted full
  · exact ⟨_, _, rfl, .rfl, unknown, rfl⟩
  · omega
  · refine ⟨_, _, rfl, keeps_asked.trans (keeps_setPartial _), (slot_setPartial _).trans ?_⟩
    rw [show verifier.asked.verdicts index = .unknown from unknown]
  · exact absurd (granting _ _) granted
  · refine ⟨_, _, rfl, ?_, ?_⟩
    · refine Keeps.trans ?_ (keeps_setPartial none)
      unfold settle
      cases extent.expected source.fingerprint with
      | none => exact .rfl
      | some expected => exact keeps_setVerdict _
    · refine (slot_setPartial _).trans (congrArg (·, none) ?_)
      unfold settle settled
      cases extent.expected source.fingerprint with
      | none => exact unknown
      | some expected => exact if_pos rfl
  · refine ⟨_, _, rfl, keeps_setPartial _, (slot_setPartial _).trans ?_⟩
    rw [unknown]

theorem feedExtent_spec (unknown : verifier.verdicts index = .unknown) :
    ∃ fed refusal, feedExtent source index extent offset bytes verifier = (fed, refusal) ∧ Keeps index verifier fed ∧
      (if refusal.isSome then fed.verdicts index = .unknown ∧
          touch source.fingerprint extent offset bytes (.unknown, verifier.partials index) = (.unknown, none)
        else fed.slot index = touch source.fingerprint extent offset bytes (.unknown, verifier.partials index)) := by
  rw [feedExtent]
  cases verifier.partials index with
  | some front => exact feedFrontier_spec granting short unknown front
  | none =>
    rw [if_pos (granting _ _)]
    -- a new frontier is the one that `touch` begins with
    have begun : (verifier.asked.setPartial index (some .new)).verdicts index = .unknown := unknown
    obtain ⟨fed, refusal, same, keeps, spec⟩ := feedFrontier_spec granting short begun .new
    exact ⟨fed, refusal, same, (keeps_asked.trans (keeps_setPartial _)).trans keeps, spec⟩

/-- A read's bytes of one extent change its part as `touch` says, and nothing else. -/
theorem feedUnknown_spec (index : Nat) (extent : FileExtent) (offset : Nat)
    (verifier : StreamingVerifier) :
    Keeps index verifier (feedUnknown source index extent offset bytes verifier) ∧
      (feedUnknown source index extent offset bytes verifier).slot index = touch source.fingerprint extent offset bytes (verifier.slot index) := by
  rw [feedUnknown]
  split_ifs with unknown
  · obtain ⟨fed, refusal, same, keeps, spec⟩ := feedExtent_spec granting short unknown
    rw [same, show verifier.slot index = (.unknown, verifier.partials index) from congrArg (·, _) unknown]
    cases refusal with
    | none => exact ⟨keeps, spec⟩
    | some e =>
      obtain ⟨still, dropped⟩ := spec
      have keeps := keeps.trans (keeps_setPartial none)
      refine ⟨⟨keeps.others, keeps.whole, keeps.wholeNext, keeps.wholeOrdered⟩, ?_⟩
      rw [dropped, ← still]
      show (fed.setPartial index none).slot index = _
      exact slot_setPartial none
  · refine ⟨.rfl, ?_⟩
    rw [slot]
    cases verdict : verifier.verdicts index with
    | unknown => exact absurd verdict unknown
    | intact | damaged | unprotected => rfl

end

/-! ### The loop -/

/-- The bytes of a read that belong to an extent. -/
def share (offset : Nat) (bytes : List UInt8) (extent : FileExtent) : List UInt8 :=
  Ranges.slice (max extent.start offset - offset) (min extent.stop (offset + bytes.length) - offset) bytes

theorem length_share (extent : FileExtent) : (share offset bytes extent).length ≤ bytes.length :=
  (length_take_le' ..).trans (length_drop ▸ Nat.sub_le ..)

/-- One round of the loop, without its whole-file hash. -/
def fedOnce (source : VerifierSource) (offset : Nat) (bytes : List UInt8) (entry : FileExtent × Nat) (verifier : StreamingVerifier) :
    StreamingVerifier :=
  feedUnknown source entry.2 entry.1 (max entry.1.start offset - entry.1.start) (share offset bytes entry.1) verifier

theorem feedLoop_cons (source : VerifierSource) (verifier : StreamingVerifier) (run : Option (Nat × Nat)) {entry : FileExtent × Nat}
    (rest : List (FileExtent × Nat)) (before : entry.1.start < offset + bytes.length) :
    ∃ whole' run', feedLoop source offset bytes (entry :: rest) run verifier =
        feedLoop source offset bytes rest run' (fedOnce source offset bytes entry { verifier with whole := whole' }) ∧
      (whole', run') = if verifier.wholeOrdered then
          trackRun offset bytes entry.1.isUnprotected (max entry.1.start offset) (min entry.1.stop (offset + bytes.length)) (verifier.whole, run)
        else (verifier.whole, run) := by
  rw [feedLoop, if_neg (Nat.not_le.mpr before)]
  exact ⟨_, _, rfl, rfl⟩

/-- What the loop does to an extent, and that it leaves the rest alone. -/
theorem feedLoop_slot (granting : Granting source) (short : bytes.length < 2 ^ 63) {entries : List (FileExtent × Nat)}
    (order : entries.Pairwise fun entry later => entry.1.start ≤ later.1.start ∧ entry.2 ≠ later.2) (run : Option (Nat × Nat))
    (verifier : StreamingVerifier) :
    (∀ index, (∀ extent, (extent, index) ∈ entries → offset + bytes.length ≤ extent.start) →
      (feedLoop source offset bytes entries run verifier).slot index = verifier.slot index) ∧
    ∀ extent index, (extent, index) ∈ entries → extent.start < offset + bytes.length →
      (feedLoop source offset bytes entries run verifier).slot index =
        touch source.fingerprint extent (max extent.start offset - extent.start) (share offset bytes extent) (verifier.slot index) := by
  induction entries generalizing run verifier with
  | nil => exact ⟨fun _ _ => rfl, nofun⟩
  | cons entry rest ih =>
    obtain ⟨first, order⟩ := pairwise_cons.mp order
    by_cases before : entry.1.start < offset + bytes.length
    · obtain ⟨whole', run', looped, -⟩ := feedLoop_cons source _ run rest before
      obtain ⟨keeps, fed⟩ := feedUnknown_spec granting ((length_share entry.1).trans_lt short) entry.2 entry.1
        (max entry.1.start offset - entry.1.start) { verifier with whole := whole' }
      obtain ⟨others, touched⟩ := ih order run' (fedOnce source offset bytes entry { verifier with whole := whole' })
      rw [looped]
      refine ⟨fun index beyond => ?_, fun extent index member inside => ?_⟩
      · have apart : index ≠ entry.2 := by
          rintro rfl
          exact absurd (beyond entry.1 mem_cons_self) (Nat.not_le.mpr before)
        exact (others index fun extent member => beyond extent (mem_cons_of_mem entry member)).trans (keeps.others index apart)
      · rcases mem_cons.mp member with rfl | member
        · refine (others index fun later member => ?_).trans fed
          exact absurd rfl (first _ member).2
        · refine (touched extent index member inside).trans ?_
          have apart : index ≠ entry.2 := fun same => (first _ member).2 same.symm
          exact congrArg _ (keeps.others index apart)
    · rw [feedLoop, if_pos (Nat.not_lt.mp before)]
      refine ⟨fun _ _ => rfl, fun extent index member inside => ?_⟩
      rcases mem_cons.mp member with rfl | member
      · exact absurd inside before
      · exact absurd ((first _ member).1.trans_lt inside) before

/-- The loop hashes the whole file as `feed_whole` does, as long as the order is kept. -/
theorem feedLoop_whole (granting : Granting source) (short : bytes.length < 2 ^ 63) (entries : List (FileExtent × Nat))
    (run : Option (Nat × Nat)) (verifier : StreamingVerifier) :
    (feedLoop source offset bytes entries run verifier).whole = (if verifier.wholeOrdered then
        wholeLoop offset bytes (entries.map Prod.fst) (verifier.whole, run) else closeRun offset bytes (verifier.whole, run)) ∧
      (feedLoop source offset bytes entries run verifier).wholeNext = verifier.wholeNext ∧
      (feedLoop source offset bytes entries run verifier).wholeOrdered = verifier.wholeOrdered := by
  induction entries generalizing run verifier with
  | nil => exact ⟨by rw [feedLoop, map_nil, wholeLoop, ite_self], rfl, rfl⟩
  | cons entry rest ih =>
    rw [map_cons, wholeLoop]
    by_cases before : entry.1.start < offset + bytes.length
    · obtain ⟨whole', run', looped, tracked⟩ := feedLoop_cons source _ run rest before
      obtain ⟨keeps, -⟩ := feedUnknown_spec granting ((length_share entry.1).trans_lt short) entry.2 entry.1
        (max entry.1.start offset - entry.1.start) { verifier with whole := whole' }
      obtain ⟨here, next, ordered⟩ := ih run' (fedOnce source offset bytes entry { verifier with whole := whole' })
      rw [looped]
      refine ⟨here.trans ?_, next.trans keeps.wholeNext, ordered.trans keeps.wholeOrdered⟩
      rw [fedOnce, keeps.whole, keeps.wholeOrdered, if_neg (Nat.not_le.mpr before)]
      cases kept : verifier.wholeOrdered with
      | true =>
        rw [kept] at tracked
        rw [if_pos rfl, if_pos rfl, tracked, if_pos rfl]
      | false =>
        rw [kept] at tracked
        rw [if_neg Bool.false_ne_true, if_neg Bool.false_ne_true, tracked, if_neg Bool.false_ne_true]
    · rw [feedLoop, if_pos (Nat.not_lt.mp before), if_pos (Nat.not_lt.mp before), ite_self]
      exact ⟨rfl, rfl, rfl⟩

end Rarpar.Par3.StreamingVerifier

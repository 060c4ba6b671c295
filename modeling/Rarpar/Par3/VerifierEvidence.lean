import Rarpar.Par3.VerifierRuns

namespace Rarpar.Par3

open ListedFile

/-! What the evidence of a run of reads says. -/

/-- The evidence is what the bytes that were read say: an extent is settled by its own bytes or by the whole file, the whole
file is decided by all its protected bytes, and bytes that were read once settle what can be settled. -/
structure FileEvidence.Exact (source : VerifierSource) (content : List UInt8) (reads : List (Nat × List UInt8)) (evidence : FileEvidence) : Prop where
  intact : ∀ (index : Nat) (extent : FileExtent), source.file.extents[index]? = some extent → evidence.verdicts[index]? = some .intact →
    extent.stop ≤ content.length ∧ extent.expected source.fingerprint = some (source.fingerprint (extent.bytes content)) ∨
      evidence.wholeMatches = some true
  damaged : ∀ (index : Nat) (extent : FileExtent), source.file.extents[index]? = some extent → evidence.verdicts[index]? = some .damaged →
    extent.stop ≤ content.length ∧ ∃ expected, extent.expected source.fingerprint = some expected ∧
      source.fingerprint (extent.bytes content) ≠ expected
  whole : ∀ matching, evidence.wholeMatches = some matching → (∀ p, source.file.protects p → StreamingVerifier.Fed reads p) ∧
    (matching = true ↔ source.fingerprint (source.file.protectedBytes content 0 source.file.len) = source.file.fingerprint)
  complete : StreamingVerifier.Apart reads → ∀ (index : Nat) (extent : FileExtent), source.file.extents[index]? = some extent →
    extent.expected source.fingerprint ≠ none → (∀ p, extent.start ≤ p → p < extent.stop → StreamingVerifier.Fed reads p) →
      evidence.verdicts[index]? ≠ some .unknown

namespace StreamingVerifier
variable {source : VerifierSource} {verifier : StreamingVerifier} {content : List UInt8} {fed : Nat → Prop}
  {reads : List (Nat × List UInt8)}

theorem finish_verdicts {index : Nat} {extent : FileExtent} (found : source.file.extents[index]? = some extent) :
    (verifier.finish source).verdicts[index]? = some (sealed (wholeResult source verifier) (verifier.slot index).1) := by
  obtain ⟨inside, -⟩ := List.getElem?_eq_some_iff.mp found
  rw [finish, List.getElem?_map, List.getElem?_range inside]
  rfl

theorem wholeResult_sound (sound : verifier.wholeOrdered = true → WholeSound source.file content fed verifier) {matching : Bool}
    (result : wholeResult source verifier = some matching) : (∀ p, source.file.protects p → fed p) ∧
      (matching = true ↔ source.fingerprint (source.file.protectedBytes content 0 source.file.len) = source.file.fingerprint) := by
  unfold wholeResult at result
  split_ifs at result with decided
  obtain ⟨ordered, rest, -⟩ := decided
  obtain ⟨before, -, free⟩ := unprotectedBetween_iff.mp rest
  obtain ⟨whole, all⟩ := sound ordered
  constructor
  · intro p protects
    by_cases early : p < verifier.wholeNext
    · exact all p early protects
    · obtain ⟨extent, member, -, -, last⟩ := protects_iff.mp protects
      have inside := (source.file.tiles.stop_le.2 extent member).2.2
      rw [free p (Nat.not_lt.mp early) (by omega)] at protects
      cases protects
  · cases Option.some.inj result
    rw [decide_eq_true_iff, whole, protectedBytes_append (Nat.zero_le verifier.wholeNext) before, protectedBytes_eq_nil free, List.append_nil]

/-- In every run of reads of the content in which each empty read is harmless, the evidence is exact, and it is the evidence of
the run without its empty reads. -/
theorem feeds_exact (source : VerifierSource) (content : List UInt8) (granting : Granting source) (length : source.length = content.length)
    (width : content.length < 2 ^ 64) (reads : List (Nat × List UInt8)) (genuine : TrueReads content reads)
    (harmless : AllHarmless source (new source) reads) :
    ∃ after, feeds source reads (new source) = .ok after ∧ (after.finish source).Exact source content reads ∧
      ∃ after', feeds source (reads.filter fun read => read.2 ≠ []) (new source) = .ok after' ∧ after'.finish source = after.finish source := by
  have initial := initial_reached source content
  obtain ⟨before, after, ranAll, ran, same⟩ :=
    initial.feeds_nonempty granting length width ⟨fun _ _ _ => rfl, rfl, rfl, rfl⟩ genuine harmless
  have genuine' : TrueReads content (reads.filter fun read => read.2 ≠ []) := fun read member => genuine read (List.mem_of_mem_filter member)
  obtain ⟨_, ran', reached, settled⟩ := initial.feeds granting length width genuine' (by simp)
  cases ran.symm.trans ran'
  simp only [false_or] at reached settled
  rw [fed_filter] at reached settled
  refine ⟨before, ranAll, ?_, after, ran, same.finish.symm⟩
  rw [same.finish]
  refine ⟨fun index extent found intact => ?_, fun index extent found damaged => ?_, fun matching result => ?_,
    fun apart index extent found has all => ?_⟩
  · rw [finish_verdicts found, sealed] at intact
    split_ifs at intact with promoted
    · exact .inr promoted.1
    · exact .inl ((reached.sound index extent found).intact (Option.some.inj intact))
  · rw [finish_verdicts found, sealed] at damaged
    split_ifs at damaged with promoted
    · cases damaged
    · exact (reached.sound index extent found).damaged (Option.some.inj damaged)
  · exact wholeResult_sound reached.whole result
  · rw [finish_verdicts found, sealed]
    split_ifs with promoted
    · exact nofun
    · intro unknown
      have complete := settled (initial_settled source) (apart.filter _) (fun _ _ => id) index extent found
      obtain ⟨next, holds⟩ := complete (Option.some.inj unknown) has
      have good := (reached.sound index extent found).front_getD
      have full : extent.stop - extent.start ≤ ((after.slot index).2.getD .new).next := good.next_of_holds fun p early => by
        have held := (holds (extent.start + p) (Nat.le_add_right _ _) (by omega)).mp (all _ (Nat.le_add_right _ _) (by omega))
        rwa [Nat.add_sub_cancel_left] at held
      exact absurd next (Nat.not_lt.mpr full)

/-- A file of one block of two bytes, with the sum of the bytes for a hash. -/
def twoBytes : VerifierSource where
  file := {
    fingerprint := .replicate 16 4
    len := 2
    extents := [⟨0, 2, .block 0 0 (some (.replicate 16 4)) none⟩]
    tiles := ⟨rfl, Nat.zero_le 2, rfl⟩
    long := by simp
  }
  fingerprint bytes := .replicate 16 (bytes.foldl (· + ·) 1)
  length := 2
  reserve _ _ := true

theorem feeds_exact_backwards : ∃ after, feeds twoBytes [(1, [2]), (0, [1])] (new twoBytes) = .ok after ∧
    (after.finish twoBytes).Exact twoBytes [1, 2] [(1, [2]), (0, [1])] := by
  have genuine : TrueReads [1, 2] [(1, [2]), (0, [1])] := by
    rintro read member
    simp only [List.mem_cons, List.not_mem_nil, or_false] at member
    rcases member with rfl | rfl
    · exact ⟨⟨by decide, rfl⟩, by decide⟩
    · exact ⟨⟨by decide, rfl⟩, by decide⟩
  obtain ⟨after, ran, exact', -⟩ := feeds_exact twoBytes [1, 2] (fun _ _ => rfl) rfl (by decide) [(1, [2]), (0, [1])] genuine
    ⟨.inl nofun, fun _ _ => ⟨.inl nofun, fun _ _ => trivial⟩⟩
  exact ⟨after, ran, exact'⟩

/-- An empty read at the end decides the whole file before any byte of it was read, and an empty read at the place of a kept
fragment loses that fragment, so that the extent stays unknown. -/
theorem empty_reads_are_not_harmless :
    (feeds twoBytes [(2, [])] (new twoBytes)).map (finish twoBytes) = .ok ⟨[.unknown], some false⟩ ∧
      (feeds twoBytes [] (new twoBytes)).map (finish twoBytes) = .ok ⟨[.unknown], none⟩ ∧
      (feeds twoBytes [(1, [2]), (1, []), (0, [1])] (new twoBytes)).map (finish twoBytes) = .ok ⟨[.unknown], none⟩ ∧
      (feeds twoBytes [(1, [2]), (0, [1])] (new twoBytes)).map (finish twoBytes) = .ok ⟨[.intact], none⟩ ∧
      TrueReads [1, 2] [(2, []), (1, [2]), (1, []), (0, [1])] ∧ Apart [(1, [2]), (1, []), (0, [1])] := by
  refine ⟨by decide +kernel, by decide +kernel, by decide +kernel, by decide +kernel, fun read member => ?_, ?_⟩
  · simp only [List.mem_cons, List.not_mem_nil, or_false] at member
    rcases member with rfl | rfl | rfl | rfl
    all_goals exact ⟨⟨by decide, rfl⟩, by decide⟩
  · simp [Apart]

end StreamingVerifier
end Rarpar.Par3

import Mathlib.Data.UInt
import Rarpar.Par2.SessionFiles

namespace Rarpar.Par2
open Ranges List Nat Function

/-- One call of `feed_range`. -/
structure Feed where
  fileId : FileId
  offset : Nat
  data : List UInt8

namespace Feed

/-- The feed has the byte at the offset of the file. -/
def Gives (feed : Feed) (f : FileId) (k : Nat) (v : UInt8) : Prop :=
  feed.fileId = f ∧ feed.offset ≤ k ∧ feed.data[k - feed.offset]? = some v

def Reaches (feed : Feed) (f : FileId) (k : Nat) : Prop :=
  feed.fileId = f ∧ feed.offset ≤ k ∧ k < feed.offset + feed.data.length

/-- The data is the file's own at the offset. -/
def TrueTo (feed : Feed) (content : List UInt8) : Prop :=
  feed.offset + feed.data.length ≤ content.length ∧
    feed.data = slice feed.offset (feed.offset + feed.data.length) content

instance (feed : Feed) (f : FileId) (k : Nat) : Decidable (feed.Reaches f k) :=
  inferInstanceAs (Decidable (feed.fileId = f ∧ feed.offset ≤ k ∧ k < feed.offset + feed.data.length))

instance (feed : Feed) (content : List UInt8) : Decidable (feed.TrueTo content) :=
  inferInstanceAs (Decidable (feed.offset + feed.data.length ≤ content.length ∧
    feed.data = slice feed.offset (feed.offset + feed.data.length) content))

end Feed

namespace VerificationSession

def feedAll (hashes : Hashes) : List Feed → VerificationSession → Except Panic (List FeedOutcome × VerificationSession)
  | [], s => .ok ([], s)
  | feed :: rest, s =>
    match s.feedRange hashes feed.fileId feed.offset feed.data with
    | .error panic => .error panic
    | .ok (outcome, s) =>
      match feedAll hashes rest s with
      | .error panic => .error panic
      | .ok (outcomes, s) => .ok (outcome :: outcomes, s)

/-- The verdict on a slice, once there is one. -/
def verdict (f : FileId) (i : Nat) (s : VerificationSession) : Option Bool :=
  (s.fileStates f).bind fun state => state.verifiedSlices[i]?.join

section Runs
variable {hashes : Hashes} {set : Par2FileSet} {Fed : FileId → Nat → UInt8 → Prop} {s s' : VerificationSession}
  {f : FileId} {desc : FileDescription}

/-- The state of every file keeps its invariant. -/
structure Inv (hashes : Hashes) (set : Par2FileSet) (Fed : FileId → Nat → UInt8 → Prop) (s : VerificationSession) :
    Prop where
  set_eq : s.par2Set = some set
  files : ∀ f state, s.fileStates f = some state → ∃ desc, set.files.lookup f = some desc ∧
    FileInv hashes desc.length set.sliceSize ((set.sliceChecksums.lookup f).getD []) (Fed f) state

theorem Inv.setState (inv : Inv hashes set Fed s) {state : FileVerificationState}
    (known : set.files.lookup f = some desc)
    (kept : FileInv hashes desc.length set.sliceSize ((set.sliceChecksums.lookup f).getD []) (Fed f) state)
    (budget : VerificationMemoryBudget) :
    Inv hashes set Fed { s with fileStates := update s.fileStates f (some state), memoryBudget := budget } where
  set_eq := inv.set_eq
  files g other present := by
    dsimp only at present
    by_cases same : g = f
    · grind
    · rw [update_of_ne same] at present
      exact inv.files g other present

theorem withPar2Set_inv (budget : VerificationMemoryBudget) : Inv hashes set Fed (withPar2Set set budget) := by
  unfold withPar2Set initializeFileStates withMemoryBudget
  dsimp only
  have start : Inv hashes set Fed ⟨some set, fun _ => none, budget⟩ := ⟨rfl, nofun⟩
  generalize (⟨some set, fun _ => none, budget⟩ : VerificationSession) = s at start
  induction set.recoveryFileIds generalizing s with
  | nil => exact start
  | cons f rest ih =>
    rw [foldl_cons]
    refine ih _ ?_
    split
    · rename_i desc _ known
      exact start.setState known new_inv s.memoryBudget
    · exact start

/-- The state that a feed of the file starts from. -/
def stateOf (f : FileId) (desc : FileDescription) (set : Par2FileSet) (s : VerificationSession) : FileVerificationState :=
  (s.fileStates f).getD (.new desc.length set.sliceSize)

theorem Inv.stateOf (inv : Inv hashes set Fed s)
    (known : set.files.lookup f = some desc) :
    FileInv hashes desc.length set.sliceSize ((set.sliceChecksums.lookup f).getD []) (Fed f) (s.stateOf f desc set) := by
  unfold VerificationSession.stateOf
  cases present : s.fileStates f with
  | none => exact new_inv
  | some state =>
    obtain ⟨other, there, kept⟩ := inv.files f state present
    rw [known] at there
    cases there
    exact kept

/-- What `feed_range` does: nothing, or the loop over the slices it touches. -/
theorem feedRange_cases (set_eq : s.par2Set = some set) (f : FileId) (offset : Nat) (data : List UInt8) :
    (∃ outcome, s.feedRange hashes f offset data = .ok (outcome, s) ∧
      ∀ desc checksums, set.files.lookup f = some desc → set.sliceChecksums.lookup f = some checksums →
        0 < set.sliceSize → offset + data.length < 2 ^ 64 → offset + data.length ≤ desc.length → data = []) ∨
    ∃ desc checksums indices, set.files.lookup f = some desc ∧ set.sliceChecksums.lookup f = some checksums ∧
      (∀ i ∈ indices, Touches desc.length set.sliceSize offset data i) ∧ indices.Nodup ∧
      (∀ i, Touches desc.length set.sliceSize offset data i → i ∈ indices) ∧
      s.feedRange hashes f offset data =
        match feedLoop hashes set.recoverySetId f checksums offset data indices .start (s.stateOf f desc set)
            s.memoryBudget with
        | .error panic => .error panic
        | .ok (outcome, state, budget) => .ok (outcome,
            { s with fileStates := update s.fileStates f (some state), memoryBudget := budget }) := by
  unfold feedRange
  rw [set_eq]
  dsimp only
  cases known : set.files.lookup f with
  | none => exact Or.inl ⟨_, rfl, nofun⟩
  | some desc =>
    cases sums : set.sliceChecksums.lookup f with
    | none => exact Or.inl ⟨_, rfl, fun _ _ _ absent => nomatch absent⟩
    | some checksums =>
      dsimp only
      split
      · exact Or.inl ⟨_, rfl, fun _ _ _ _ positive => by omega⟩
      split
      · grind
      split
      · exact Or.inl ⟨_, rfl, fun _ _ _ _ _ _ _ => by assumption⟩
      rename_i positive inside some_
      right
      rw [not_not] at inside
      have long := length_pos_of_ne_nil some_
      have positive : 0 < set.sliceSize := pos_of_ne_zero positive
      refine ⟨desc, checksums, _, rfl, rfl, fun i member => ?_, nodup_range', fun i touches => ?_, rfl⟩
      · obtain ⟨first, last⟩ := mem_range'_1.mp member
        have first : offset < (i + 1) * set.sliceSize := (div_lt_iff_lt_mul positive).mp (by omega)
        have last : i * set.sliceSize ≤ offset + data.length - 1 := (le_div_iff_mul_le positive).mp (by omega)
        rw [succ_mul] at first
        exact ⟨by omega, first, inside.2.2, inside.1⟩
      · have first : offset / set.sliceSize < i + 1 := by
          rw [div_lt_iff_lt_mul positive, succ_mul]
          exact touches.ends
        have last : i ≤ (offset + data.length - 1) / set.sliceSize := by
          rw [le_div_iff_mul_le positive]
          have := touches.starts
          omega
        exact mem_range'_1.mpr ⟨by omega, by omega⟩

/-- The verdicts that there are stay. -/
def Keeps (s s' : VerificationSession) : Prop := ∀ f i valid, s.verdict f i = some valid → s'.verdict f i = some valid

theorem verdict_eq_slot (f : FileId) (desc : FileDescription) (set : Par2FileSet) (s : VerificationSession) (i : Nat) :
    s.verdict f i = ((s.stateOf f desc set).slot i).verified := by
  unfold verdict stateOf
  cases s.fileStates f with
  | none =>
    rw [Option.getD_none, slot_new]
    rfl
  | some state => rfl

theorem stateOf_update_self (f : FileId) (desc : FileDescription) (state : FileVerificationState)
    (budget : VerificationMemoryBudget) :
    stateOf f desc set { s with fileStates := update s.fileStates f (some state), memoryBudget := budget } =
      state := by
  unfold stateOf
  dsimp only
  rw [update_self]
  rfl

theorem feedRange_sound (inv : Inv hashes set Fed s) (feed : Feed) (new : ∀ f k v, feed.Gives f k v → Fed f k v) :
    ∃ outcome s', s.feedRange hashes feed.fileId feed.offset feed.data = .ok (outcome, s') ∧ Inv hashes set Fed s' ∧
      Keeps s s' := by
  rcases feedRange_cases inv.set_eq feed.fileId feed.offset feed.data with ⟨outcome, run, _⟩ |
    ⟨desc, checksums, indices, known, sums, touches, _, _, run⟩
  · exact ⟨outcome, s, run, inv, fun _ _ _ done => done⟩
  · have file := inv.stateOf known
    rw [sums, Option.getD_some] at file
    obtain ⟨outcome, state, budget, loop, kept, verdicts⟩ := feedLoop_sound set.recoverySetId feed.fileId file
      (fun k v least there => new feed.fileId k v ⟨rfl, least, there⟩) touches .start s.memoryBudget
    rw [run, loop]
    refine ⟨outcome, _, rfl, inv.setState known (by rw [sums]; exact kept) budget, fun f i valid done => ?_⟩
    by_cases same : f = feed.fileId
    · subst same
      rw [verdict_eq_slot _ desc set] at done ⊢
      rw [stateOf_update_self]
      exact verdicts i valid done
    · grind [verdict]

theorem Keeps.trans {s₁ s₂ s₃ : VerificationSession} (first : Keeps s₁ s₂) (second : Keeps s₂ s₃) : Keeps s₁ s₃ :=
  fun f i valid done => second f i valid (first f i valid done)

theorem feedAll_sound (inv : Inv hashes set Fed s) (feeds : List Feed)
    (new : ∀ feed ∈ feeds, ∀ f k v, feed.Gives f k v → Fed f k v) :
    ∃ outcomes s', s.feedAll hashes feeds = .ok (outcomes, s') ∧ Inv hashes set Fed s' ∧ Keeps s s' := by
  induction feeds generalizing s with
  | nil => exact ⟨[], s, rfl, inv, fun _ _ _ done => done⟩
  | cons feed rest ih =>
    obtain ⟨outcome, s₁, run, inv₁, kept⟩ := feedRange_sound inv feed (new feed mem_cons_self)
    obtain ⟨outcomes, s', runs, inv', kept'⟩ := ih inv₁ fun other member => new other (mem_cons_of_mem feed member)
    refine ⟨outcome :: outcomes, s', ?_, inv', kept.trans kept'⟩
    rw [feedAll, run]
    dsimp only
    rw [runs]

theorem Inv.mono {More : FileId → Nat → UInt8 → Prop} (more : ∀ f k v, Fed f k v → More f k v)
    (inv : Inv hashes set Fed s) : Inv hashes set More s where
  set_eq := inv.set_eq
  files f state present := by
    obtain ⟨desc, known, kept⟩ := inv.files f state present
    exact ⟨desc, known, kept.mono (more f)⟩

/-- A verdict is on one byte string that was fed. -/
theorem Inv.verdict_fed (inv : Inv hashes set Fed s) {i : Nat} {valid : Bool}
    (done : s.verdict f i = some valid) :
    ∃ desc checksums expected bytes, set.files.lookup f = some desc ∧ set.sliceChecksums.lookup f = some checksums ∧
      checksums[i]? = some expected ∧ bytes.length = sliceLength desc.length set.sliceSize i ∧
      (∀ k v, bytes[k]? = some v → Fed f (i * set.sliceSize + k) v) ∧
      valid = decide (hashes.crc32 (padded set.sliceSize bytes) = expected.crc32 ∧
        hashes.md5 (padded set.sliceSize bytes) = expected.md5) := by
  cases present : s.fileStates f with
  | none =>
    rw [verdict, present] at done
    cases done
  | some state =>
    obtain ⟨desc, known, file⟩ := inv.files f state present
    have slot : (state.slot i).verified = some valid := by
      rw [verdict, present] at done
      exact done
    cases there : ((set.sliceChecksums.lookup f).getD [])[i]? with
    | none =>
      rw [file.others i there] at slot
      cases slot
    | some expected =>
      have kept := file.slots i expected there
      rw [kept.verdict] at slot
      obtain ⟨fingerprint, settled, judged⟩ := Option.map_eq_some_iff.mp slot
      obtain ⟨bytes, length, fed, hashed⟩ := kept.settled fingerprint settled
      cases sums : set.sliceChecksums.lookup f with
      | none =>
        rw [sums] at there
        cases there
      | some checksums =>
        rw [sums, Option.getD_some] at there
        refine ⟨desc, checksums, expected, bytes, known, rfl, there, length, fed, ?_⟩
        rw [← judged, hashed, SliceFingerprint.fromData_eq]
        rfl

end Runs

section Truth
variable {hashes : Hashes} {set : Par2FileSet} {s s' : VerificationSession} {f : FileId} {desc : FileDescription}
  {checksums : List SliceChecksum} {content : List UInt8}

/-- Bytes of the file in question are true; of the others anything may be fed. -/
def TrueFed (f : FileId) (content : List UInt8) (g : FileId) (k : Nat) (v : UInt8) : Prop :=
  g = f → v = content.getD k 0

theorem TrueFed.of_trueTo {feed : Feed} (true_ : feed.fileId = f → feed.TrueTo content) {g : FileId} {k : Nat} {v : UInt8}
    (gives : feed.Gives g k v) : TrueFed f content g k v := by
  rintro rfl
  obtain ⟨same, least, there⟩ := gives
  obtain ⟨inside, data⟩ := true_ same
  obtain ⟨bound, _⟩ := List.getElem?_eq_some_iff.mp there
  rw [data, getElem?_slice (by omega), Nat.add_sub_cancel' least] at there
  rw [getD_eq_getElem?_getD, there]
  rfl

/-- What is covered is settled or buffered, in every slice of the file. -/
def Exact (f : FileId) (desc : FileDescription) (set : Par2FileSet) (Covered : Nat → Prop) (s : VerificationSession) : Prop :=
  ∀ i, SlotExact (sliceLength desc.length set.sliceSize i) (fun k => Covered (i * set.sliceSize + k))
    ((s.stateOf f desc set).slot i)

section
variable (inv : Inv hashes set (TrueFed f content) s) (known : set.files.lookup f = some desc)
  (sums : set.sliceChecksums.lookup f = some checksums) (length : desc.length = content.length)
  (small : content.length < 2 ^ 64) (positive : 0 < set.sliceSize)
  (enough : numSlices desc.length set.sliceSize ≤ checksums.length) {Covered : Nat → Prop}
include inv known sums length small positive enough

theorem feedRange_exact {feed : Feed}
    (true_ : feed.fileId = f → feed.TrueTo content) {outcome : FeedOutcome}
    (run : s.feedRange hashes feed.fileId feed.offset feed.data = .ok (outcome, s'))
    (room : outcome.disposition ≠ .budgetExhausted) (exact : Exact f desc set Covered s) :
    Exact f desc set (fun k => Covered k ∨ feed.Reaches f k) s' := by
  rcases feedRange_cases inv.set_eq feed.fileId feed.offset feed.data with ⟨outcome', run', empty⟩ |
    ⟨desc', checksums', indices, known', sums', touches, once, all, run'⟩
  · -- nothing was fed
    rw [run'] at run
    cases run
    refine fun i => (exact i).congr fun k _ => or_iff_left ?_
    rintro ⟨same, least, most⟩
    obtain ⟨inside, _⟩ := true_ same
    rw [same] at empty
    rw [empty desc _ known sums positive (by omega) (by omega), length_nil] at most
    omega
  have file := inv.stateOf known'
  rw [sums', Option.getD_some] at file
  obtain ⟨outcome', state, budget, loop, _⟩ := feedLoop_sound set.recoverySetId feed.fileId file
    (fun k v least there => TrueFed.of_trueTo true_ ⟨rfl, least, there⟩) touches .start s.memoryBudget
  rw [run', loop] at run
  cases run
  by_cases same : feed.fileId = f
  · rw [same] at file known' sums' loop ⊢
    rw [known] at known'
    rw [sums] at sums'
    cases known'
    cases sums'
    have truths : FileInv hashes desc.length set.sliceSize checksums (fun k v => v = content.getD k 0)
        (s.stateOf f desc set) := file.mono fun k v fed => fed rfl
    have exact' := (feedLoop_exact Covered truths (fun k v least there => TrueFed.of_trueTo true_ ⟨same, least, there⟩ rfl)
      touches once (fun i member => (touches i member).lt_numSlices.trans_le enough) rfl loop room).2 fun i => ?_
    · intro i
      rw [stateOf_update_self]
      exact (exact' i).congr fun k _ => or_congr_right (and_iff_right same)
    · -- a slice that the feed does not touch has none of its bytes
      refine (exact i).congr fun k inside => or_iff_left ?_
      rintro ⟨absent, least, most⟩
      obtain ⟨fits, _⟩ := true_ same
      rw [sliceLength] at inside
      exact absent (all i ⟨by omega, by omega, by omega, by omega⟩)
  · intro i
    have other : stateOf f desc set { s with
        fileStates := update s.fileStates feed.fileId (some state), memoryBudget := budget } =
        s.stateOf f desc set := by
      unfold stateOf
      dsimp only
      rw [update_of_ne (Ne.symm same)]
    rw [other]
    exact (exact i).congr fun k _ => or_iff_left fun reaches => same reaches.1

theorem feedAll_exact {feeds : List Feed}
    (true_ : ∀ feed ∈ feeds, feed.fileId = f → feed.TrueTo content) {outcomes : List FeedOutcome}
    (run : s.feedAll hashes feeds = .ok (outcomes, s')) (room : ∀ outcome ∈ outcomes, outcome.disposition ≠ .budgetExhausted)
    (exact : Exact f desc set Covered s) :
    Exact f desc set (fun k => Covered k ∨ ∃ feed ∈ feeds, feed.Reaches f k) s' := by
  induction feeds generalizing s outcomes Covered with
  | nil =>
    cases run
    exact fun i => (exact i).congr fun k _ => or_iff_left (by simp)
  | cons feed rest ih =>
    have here := true_ feed mem_cons_self
    obtain ⟨outcome, s₁, first, inv₁, _⟩ := feedRange_sound inv feed fun g k v gives => TrueFed.of_trueTo here gives
    rw [feedAll, first] at run
    dsimp only at run
    split at run
    · cases run
    · rename_i outcomes₁ _ later
      cases run
      have step := feedRange_exact inv known sums length small positive enough here first
        (room outcome mem_cons_self) exact
      have final := ih inv₁ (fun other member => true_ other (mem_cons_of_mem feed member)) later
        (fun other member => room other (mem_cons_of_mem outcome member)) step
      refine fun i => (final i).congr fun k _ => ?_
      dsimp only
      rw [exists_mem_cons_iff, or_assoc]

end

/-- While nothing has been fed, nothing is buffered or settled. -/
theorem Inv.exact_nothing (inv : Inv hashes set (fun _ _ _ => False) s) (known : set.files.lookup f = some desc) :
    Exact f desc set (fun _ => False) s := by
  intro i
  have file := inv.stateOf known
  cases there : ((set.sliceChecksums.lookup f).getD [])[i]? with
  | none =>
    rw [file.others i there]
    exact ⟨fun some_ => absurd rfl some_, fun _ k _ => iff_of_false id nofun⟩
  | some expected =>
    have slot := file.slots i expected there
    refine ⟨fun some_ k inside => ?_, fun _ k _ => iff_of_false id ?_⟩
    · obtain ⟨fingerprint, settled⟩ := Option.ne_none_iff_exists'.mp some_
      obtain ⟨bytes, length, fed, _⟩ := slot.settled fingerprint settled
      have bound : k < bytes.length := by omega
      exact fed k _ (getElem?_eq_getElem bound)
    · rintro ⟨p, present, covers⟩
      obtain ⟨v, held⟩ := Runs.covers_iff_holds.mp covers
      obtain ⟨_, _, _, fed⟩ := slot.buffer p present
      exact fed k v held

/-- True bytes of the length of a slice are the slice. -/
theorem eq_slice_of_true {sliceSize i : Nat} {bytes : List UInt8}
    (size : bytes.length = sliceLength content.length sliceSize i)
    (fed : ∀ k v, bytes[k]? = some v → v = content.getD (i * sliceSize + k) 0) :
    bytes = slice (i * sliceSize) ((i + 1) * sliceSize) content := by
  have total : (slice (i * sliceSize) ((i + 1) * sliceSize) content).length = bytes.length := by
    rw [size, slice, length_take, length_drop, sliceLength, succ_mul]
    omega
  apply ext_getElem?
  intro k
  by_cases inside : k < bytes.length
  · have there : i * sliceSize + k < content.length := by
      rw [size, sliceLength] at inside
      omega
    have near : i * sliceSize + k < (i + 1) * sliceSize := by
      rw [size, sliceLength] at inside
      rw [succ_mul]
      omega
    rw [getElem?_slice near, getElem?_eq_getElem inside, fed k _ (getElem?_eq_getElem inside),
      getElem?_eq_getElem there, getD_eq_getElem?_getD, getElem?_eq_getElem there, Option.getD_some]
  · rw [getElem?_eq_none (by omega), getElem?_eq_none (by omega)]

end Truth

/-- The verdicts of a session over any run of feeds. No feed panics. A settled slice is one byte string,
each byte of which was fed at its own offset, against its checksum entry, and it stays settled so. If the
feeds of a file are true and no limit is hit, its settled slices are those that the feeds cover. -/
theorem feedAll_verdicts (hashes : Hashes) (set : Par2FileSet) (budget : VerificationMemoryBudget) (feeds : List Feed) :
    ∃ outcomes s, (withPar2Set set budget).feedAll hashes feeds = .ok (outcomes, s) ∧
      (∀ f i valid, s.verdict f i = some valid → ∃ desc checksums expected bytes,
        set.files.lookup f = some desc ∧ set.sliceChecksums.lookup f = some checksums ∧ checksums[i]? = some expected ∧
        bytes.length = sliceLength desc.length set.sliceSize i ∧
        (∀ k v, bytes[k]? = some v → ∃ feed ∈ feeds, feed.Gives f (i * set.sliceSize + k) v) ∧
        valid = decide (hashes.crc32 (padded set.sliceSize bytes) = expected.crc32 ∧
          hashes.md5 (padded set.sliceSize bytes) = expected.md5)) ∧
      (∀ more, ∃ outcomes' s', s.feedAll hashes more = .ok (outcomes', s') ∧ Keeps s s') ∧
      ∀ f desc checksums content, set.files.lookup f = some desc → set.sliceChecksums.lookup f = some checksums →
        desc.length = content.length → content.length < 2 ^ 64 →
        numSlices content.length set.sliceSize ≤ checksums.length →
        (∀ feed ∈ feeds, feed.fileId = f → feed.TrueTo content) →
        (∀ outcome ∈ outcomes, outcome.disposition ≠ .budgetExhausted) →
        ∀ i < numSlices content.length set.sliceSize,
          ((s.verdict f i).isSome ↔
            ∀ k < sliceLength content.length set.sliceSize i, ∃ feed ∈ feeds, feed.Reaches f (i * set.sliceSize + k)) ∧
          ∀ valid expected, s.verdict f i = some valid → checksums[i]? = some expected →
            (valid = true ↔
              hashes.crc32 (padded set.sliceSize (slice (i * set.sliceSize) ((i + 1) * set.sliceSize) content)) =
                  expected.crc32 ∧
                hashes.md5 (padded set.sliceSize (slice (i * set.sliceSize) ((i + 1) * set.sliceSize) content)) =
                  expected.md5) := by
  have start {Fed : FileId → Nat → UInt8 → Prop} : Inv hashes set Fed _ := withPar2Set_inv budget
  obtain ⟨outcomes, s, run, inv, _⟩ := feedAll_sound start feeds
    (fun feed member f k v gives => (⟨feed, member, gives⟩ : ∃ feed ∈ feeds, feed.Gives f k v))
  refine ⟨outcomes, s, run, fun f i valid done => inv.verdict_fed done, fun more => ?_, ?_⟩
  · obtain ⟨outcomes', s', run', _, kept⟩ := feedAll_sound (inv.mono fun _ _ _ _ => trivial) more
      (fun _ _ _ _ _ _ => trivial)
    exact ⟨outcomes', s', run', kept⟩
  intro f desc checksums content known sums length small enough true_ room i within
  have positive : 0 < set.sliceSize := by
    by_contra zero
    rw [numSlices, if_pos (Or.inr (Nat.eq_zero_of_not_pos zero))] at within
    cases within
  have inside := (lt_numSlices positive).mp within
  have long : 0 < sliceLength content.length set.sliceSize i := by
    rw [sliceLength]
    omega
  obtain ⟨outcomes', s', run', truths, _⟩ := feedAll_sound (@start _) feeds
    fun feed member g k v gives => TrueFed.of_trueTo (true_ feed member) gives
  rw [run] at run'
  cases run'
  have exact := feedAll_exact start known sums length small positive (by rwa [length]) true_ run room
    ((@start fun _ _ _ => False).exact_nothing known)
  refine ⟨?_, fun valid expected done present => ?_⟩
  · have file := truths.stateOf known
    rw [sums, Option.getD_some] at file
    have slot := file.slots i _ (getElem?_eq_getElem (within.trans_le enough))
    rw [verdict_eq_slot f desc set, ← length, (exact i).settled_iff slot (by rwa [length])]
    simp only [false_or]
  · obtain ⟨desc', checksums', expected', bytes, known', sums', present', size, fed, judged⟩ := truths.verdict_fed done
    rw [known] at known'
    rw [sums] at sums'
    cases known'
    cases sums'
    rw [present] at present'
    cases present'
    rw [length] at size
    rw [judged, decide_eq_true_eq, eq_slice_of_true size fun k v there => fed k v there rfl]

/-- A file of three bytes in slices of two, the second with a wrong entry; the sum stands for CRC-32. -/
def sampleSet : Par2FileSet where
  recoverySetId := .replicate 16 1
  sliceSize := 2
  recoveryFileIds := [.replicate 16 0]
  nonRecoveryFileIds := []
  files := .tabulate {.replicate 16 0} fun f => ⟨f, .replicate 16 0, .replicate 16 0, 3, "a", "a"⟩
  sliceChecksums := .tabulate {.replicate 16 0} fun _ => [⟨11, .replicate 16 0⟩, ⟨8, .replicate 16 0⟩]
  recoverySlices := .tabulate ∅ fun e => ⟨e, .inMemory []⟩
  creator := none
  unicodeNames := ⟨.tabulate ∅ fun _ => none, .tabulate ∅ fun _ => ("", "")⟩

def sampleHashes : Hashes := ⟨fun bytes => (bytes.map (·.toUInt32)).sum, fun _ => .replicate 16 0⟩

/-- Fed byte by byte and out of order, with an overlap. -/
theorem feedAll_verdicts_sample :
    ∃ outcomes s, (withPar2Set sampleSet (.new 1000)).feedAll sampleHashes
        [⟨.replicate 16 0, 1, [6]⟩, ⟨.replicate 16 0, 1, [6, 7]⟩, ⟨.replicate 16 0, 0, [5]⟩] = .ok (outcomes, s) ∧
      s.verdict (.replicate 16 0) 0 = some true ∧ s.verdict (.replicate 16 0) 1 = some false := by
  obtain ⟨outcomes, s, run, _, _, exact⟩ := feedAll_verdicts sampleHashes sampleSet (.new 1000)
    [⟨.replicate 16 0, 1, [6]⟩, ⟨.replicate 16 0, 1, [6, 7]⟩, ⟨.replicate 16 0, 0, [5]⟩]
  have outs : ((withPar2Set sampleSet (.new 1000)).feedAll sampleHashes
      [⟨.replicate 16 0, 1, [6]⟩, ⟨.replicate 16 0, 1, [6, 7]⟩, ⟨.replicate 16 0, 0, [5]⟩]).toOption.map
        (fun r => r.1.map FeedOutcome.disposition) = some [.buffered, .verified, .verified] := by
    decide
  rw [run] at outs
  have dispositions : outcomes.map FeedOutcome.disposition = [.buffered, .verified, .verified] := Option.some.inj outs
  have room : ∀ outcome ∈ outcomes, outcome.disposition ≠ .budgetExhausted := fun outcome member exhausted => by
    have listed := mem_map_of_mem (f := FeedOutcome.disposition) member
    rw [dispositions, exhausted] at listed
    exact absurd listed (by decide)
  have slices := exact (.replicate 16 0) _ _ [5, 6, 7] rfl rfl rfl (by decide) (by decide) (by decide) room
  obtain ⟨first, right⟩ := slices 0 (by decide)
  obtain ⟨second, wrong⟩ := slices 1 (by decide)
  obtain ⟨valid, done⟩ := Option.isSome_iff_exists.mp (first.mpr (by decide))
  obtain ⟨valid', done'⟩ := Option.isSome_iff_exists.mp (second.mpr (by decide))
  have judged := right valid _ done rfl
  have judged' := wrong valid' _ done' rfl
  refine ⟨outcomes, s, run, ?_, ?_⟩
  · rw [done, judged.mpr (by decide)]
  · rw [done', Bool.eq_false_iff.mpr (fun true_ => absurd (judged'.mp true_) (by decide))]

end VerificationSession
end Rarpar.Par2

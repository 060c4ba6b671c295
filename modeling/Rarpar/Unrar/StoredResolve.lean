import Rarpar.Unrar.StoredChain

namespace Rarpar.Unrar
open List
open StoredMemberPart (erase)

variable {parts parts' : List StoredMemberPart} {p : StoredMemberPart} {encryptions : OrderedMap PartEncryption}
  {first : StoredMemberPart} {format : ArchiveFormat} (added : Nat → Bool)

/-! ### What a chain says does not depend on offsets written before -/

section
variable (parts : List StoredMemberPart)

theorem placeChain_map_erase : placeChain (parts.map erase) = placeChain parts := by
  unfold placeChain
  rw [placeParts_map_erase]
  cases parts <;> rfl

theorem map_erase_placeChain : (placeChain parts).1.map erase = parts.map erase :=
  map_erase_place _ _ _

theorem chainComplete_map_erase : chainComplete (parts.map erase) = chainComplete parts := by
  unfold chainComplete
  rw [placeChain_map_erase, getLast?_map]
  cases parts.getLast? <;> rfl

theorem packedTotal_map_erase : packedTotal (parts.map erase) = packedTotal parts := by
  unfold packedTotal
  rw [foldl_map]
  rfl

theorem misplacedEnds_map_erase (last position : Nat) (parts : List StoredMemberPart) :
    misplacedEnds last position (parts.map erase) = misplacedEnds last position parts := by
  induction parts generalizing position with
  | nil => rfl
  | cons h rest ih =>
    rw [map_cons, misplacedEnds, misplacedEnds, ih]
    rfl

theorem missingPart_map_erase (expected : Nat) (parts : List StoredMemberPart) :
    missingPart added expected (parts.map erase) = missingPart added expected parts := by
  induction parts generalizing expected with
  | nil => rfl
  | cons h rest ih =>
    rw [map_cons, missingPart, missingPart, ih]
    rfl

theorem chainMalformation_map_erase :
    chainMalformation added (parts.map erase) = chainMalformation added parts := by
  cases parts with
  | nil => rfl
  | cons h rest =>
    have ends := misplacedEnds_map_erase ((h :: rest).length - 1) 0 (h :: rest)
    have holes := missingPart_map_erase added h.volume (h :: rest)
    rw [← length_map (f := erase)] at ends
    rw [map_cons] at ends holes ⊢
    simp only [chainMalformation, ends, StoredMemberPart.erase_volume, StoredMemberPart.erase_splitBefore, holes]
    rw [length_cons, length_map, length_cons]
    rfl

theorem chainMalformation_placeChain :
    chainMalformation added (placeChain parts).1 = chainMalformation added parts := by
  rw [← chainMalformation_map_erase, map_erase_placeChain, chainMalformation_map_erase]

end

/-! ### Chains inside longer ones -/

theorem placeChain_cons {rest : List StoredMemberPart} (starts : first.splitBefore = false) :
    placeChain (first :: rest) = placeParts (some 0) first.volume (first :: rest) := by
  simp only [placeChain, head?_cons, Option.any_some, starts, Bool.not_false, if_true, Option.map_some, Option.getD_some]

/-- Offsets are known only where the first part starts the member. -/
theorem exists_start (known : (placeChain parts).2.isSome ∨ ∃ p ∈ (placeChain parts).1, p.logicalOffset.isSome) :
    ∃ first rest, parts = first :: rest ∧ first.splitBefore = false := by
  cases parts with
  | nil =>
    rcases known with impossible | ⟨_, impossible, _⟩
    · cases impossible
    · cases impossible
  | cons first rest =>
    refine ⟨first, rest, rfl, Bool.eq_false_of_not_eq_true fun continued => ?_⟩
    have unknown : placeChain (first :: rest) = placeParts none first.volume (first :: rest) := by
      simp only [placeChain, head?_cons, Option.any_some, continued, Bool.not_true, Bool.false_eq_true, if_false,
        Option.map_some, Option.getD_some]
    rw [unknown] at known
    rcases known with known | ⟨p, member, known⟩
    · obtain ⟨t, known⟩ := Option.isSome_iff_exists.mp known
      exact place_none _ _ known
    · obtain ⟨b, known⟩ := Option.isSome_iff_exists.mp known
      obtain ⟨_, impossible, _⟩ := le_of_mem_place member known
      cases impossible

/-- A well-formed chain starts with the part that starts the member. -/
theorem WellFormed.first_le {added : Nat → Bool} (formed : WellFormed added parts')
    (member : first ∈ parts') (starts : first.splitBefore = false) : ∀ q ∈ parts', first.volume ≤ q.volume := fun q there => by
  by_contra before
  exact Bool.false_ne_true (starts.symm.trans (formed.starts first member q there (by omega)))

section
variable {added : Nat → Bool} (order : VolumeOrder parts) (order' : VolumeOrder parts') (sub : ∀ p ∈ parts, p ∈ parts')
  (formed : WellFormed added parts')
include order order' sub formed

/-- A complete chain is no proper part of a well-formed one. -/
theorem eq_of_complete
     (complete : chainComplete parts = true) :
    parts' = parts := by
  rw [chainComplete, Bool.and_eq_true] at complete
  obtain ⟨whole, closed⟩ := complete
  obtain ⟨first, rest, rfl, starts⟩ := exists_start (.inl whole)
  rw [placeChain_cons starts] at whole
  rw [getLast?_eq_some_getLast (cons_ne_nil first rest), Option.any_some, Bool.not_eq_true'] at closed
  have last := getLast_mem (cons_ne_nil first rest)
  have least := formed.first_le (sub first mem_cons_self) starts
  refine order'.ext order fun q => ⟨fun there => ?_, sub q⟩
  have high : q.volume ≤ ((first :: rest).getLast (cons_ne_nil first rest)).volume := by
    by_contra after
    exact Bool.false_ne_true (closed.symm.trans (formed.ends _ (sub _ last) q there (by omega)))
  obtain ⟨p, member, same⟩ := place_contiguous whole (least q there) ⟨_, last, high⟩
  rwa [← order'.unique (sub p member) there same]

/-- Known offsets stay in a longer well-formed chain. -/
theorem mem_placeChain_of_subset
     (member : p ∈ (placeChain parts).1)
    (known : p.logicalOffset.isSome) : p ∈ (placeChain parts').1 := by
  obtain ⟨first, rest, rfl, starts⟩ := exists_start (.inr ⟨p, member, known⟩)
  have least := formed.first_le (sub first mem_cons_self) starts
  obtain ⟨rest', rfl⟩ : ∃ rest', parts' = first :: rest' := by
    cases parts' with
    | nil => exact absurd (sub first mem_cons_self) not_mem_nil
    | cons first' rest' =>
      have low := order'.head_le first (sub first mem_cons_self)
      have same := order'.unique (sub first mem_cons_self) mem_cons_self
        (le_antisymm (least first' mem_cons_self) low)
      exact ⟨rest', by rw [same]⟩
  rw [placeChain_cons starts] at member ⊢
  exact mem_place_of_subset order order' sub least member known

end

namespace MemberEntry
variable {added : Nat → Bool} {e : MemberEntry}

/-- The entry without what `resolve` writes. -/
def strip (e : MemberEntry) : MemberEntry :=
  { e with
    member :=
      { e.member with
        unpackedSize := none
        eligibility := .provisionallyDirect
        chainComplete := false
        parts := e.member.parts.map erase } }

section
variable (format : ArchiveFormat) (added : Nat → Bool) (e : MemberEntry)

theorem chainFacts_strip : e.strip.chainFacts format added = e.chainFacts format added := by
  simp only [chainFacts, strip, placeChain_map_erase, chainComplete_map_erase, packedTotal_map_erase]

theorem resolve_strip : e.strip.resolve format added = e.resolve format added := by
  simp only [resolve, chainFacts_strip]
  simp only [strip, placeChain_map_erase, chainComplete_map_erase]

theorem strip_resolve : (e.resolve format added).strip = e.strip := by
  simp only [resolve, strip, map_erase_placeChain]

theorem resolve_resolve : (e.resolve format added).resolve format added = e.resolve format added := by
  rw [← resolve_strip, strip_resolve, resolve_strip]

end

/-- Added volumes count through the holes of the chain only. -/
theorem resolve_congr (same : chainMalformation added e.member.parts = chainMalformation added' e.member.parts) :
    e.resolve format added = e.resolve format added' := by
  simp only [resolve, chainFacts, chainMalformation_placeChain, same]

end MemberEntry

/-! ### Agreement of the headers -/

theorem inconsistentSize_eq_none {declarations : OrderedMap Nat} :
    inconsistentSize declarations = none ↔ ∀ a ∈ declarations, declaredSize declarations = some a.2 := by
  cases declarations with
  | nil => exact iff_of_true rfl nofun
  | cons first rest =>
    simp only [inconsistentSize, declaredSize, map_cons, head?_cons, Option.map_eq_none_iff, find?_eq_none,
      mem_map, mem_cons, Option.some.injEq, decide_eq_true_eq, not_not, ne_eq]
    constructor
    · rintro same a (rfl | later)
      · rfl
      · exact (same a.2 ⟨a, later, rfl⟩).symm
    · grind

theorem keyedBy_disagreement (format : ArchiveFormat) (record : PartEncryption) :
    (keyedBy format record).disagreement = none := by
  unfold keyedBy
  split
  · rfl
  · split <;> split <;> rfl

/-- Without a disagreement any record keys the member. -/
theorem memberEncryption_disagreement :
    (memberEncryption format encryptions).disagreement = none ↔
      ∀ a ∈ encryptions, ∀ b ∈ encryptions, a.2 = b.2 := by
  cases encryptions with
  | nil => exact iff_of_true rfl nofun
  | cons first rest =>
    obtain ⟨volume, record⟩ := first
    rw [memberEncryption]
    cases found : rest.find? fun other => other.2 ≠ record with
    | some other =>
      refine iff_of_false nofun fun same => ?_
      have differs : other.2 ≠ record := by simpa using find?_some found
      exact differs (same other (mem_cons_of_mem _ (mem_of_find?_eq_some found)) _ mem_cons_self)
    | none =>
      refine iff_of_true (keyedBy_disagreement format record) ?_
      have all : ∀ a ∈ (volume, record) :: rest, a.2 = record := fun a member => by
        grind
      exact fun a first b second => (all a first).trans (all b second).symm

theorem memberEncryption_eq_keyedBy
    (same : ∀ a ∈ encryptions, ∀ b ∈ encryptions, a.2 = b.2) {a : Nat × PartEncryption} (member : a ∈ encryptions) :
    memberEncryption format encryptions = keyedBy format a.2 := by
  cases encryptions with
  | nil => cases member
  | cons first rest =>
    grind [memberEncryption, find?_eq_none.mpr, mem_cons_of_mem, mem_cons_self]

/-! ### When a member routes -/

theorem classify_of_malformed {traits : MemberTraits} {chain : ChainFacts} (encryption : MemberEncryption)
    (malformed : chain.malformed.isSome) : (classify traits chain encryption).routesDirect = false := by
  obtain ⟨reason, known⟩ := Option.isSome_iff_exists.mp malformed
  unfold classify
  rw [known]
  rfl

namespace ChainFacts
variable {chain : ChainFacts} {key : Option KeyMaterial}

/-- The totals and the checksum allow the member to route. -/
structure Fits (chain : ChainFacts) (key : Option KeyMaterial) : Prop where
  room : chain.unpackedSize.isSome → chain.total ≤ (chain.extent key).getD u64Max
  closed : chain.complete = true → chain.extent key = some chain.total ∧ chain.dataCrc32.isSome

theorem extent_isSome {size : Nat} (known : chain.extent key = some size) : chain.unpackedSize.isSome := by
  cases key with
  | some _ =>
    obtain ⟨u, declared, _⟩ := Option.bind_eq_some_iff.mp known
    rw [declared]
    rfl
  | none =>
    rw [show chain.unpackedSize = some size from known]
    rfl

theorem state_routes (chain : ChainFacts) (key : Option KeyMaterial) (resolved : Bool) :
    (chain.state key resolved).routesDirect = true := by
  cases key with
  | some _ => rfl
  | none => cases resolved <;> rfl

theorem fits_of_routes (routes : (classifyStoredChain chain key).routesDirect = true) : chain.Fits key := by
  unfold classifyStoredChain at routes
  split at routes
  · cases routes
  rename_i within
  have room : chain.unpackedSize.isSome → chain.total ≤ (chain.extent key).getD u64Max := fun declared => by
    obtain ⟨u, declared⟩ := Option.isSome_iff_exists.mp declared
    simpa [declared, Option.filter_some] using within
  split at routes
  · rename_i open_
    refine ⟨room, fun complete => ?_⟩
    rw [complete] at open_
    cases open_
  split at routes
  · cases routes
  split at routes
  · cases routes
  rename_i same
  split at routes
  · rename_i value crc
    exact ⟨room, fun _ => ⟨not_not.mp same, by rw [crc]; rfl⟩⟩
  · cases routes
  · cases routes

theorem Fits.classify_eq (fits : chain.Fits key) : classifyStoredChain chain key = chain.state key chain.complete := by
  have within : (chain.unpackedSize.filter fun _ => (chain.extent key).getD u64Max < chain.total) = none := by
    cases declared : chain.unpackedSize with
    | none => rfl
    | some u =>
      have room := fits.room (by rw [declared]; rfl)
      rw [Option.filter_some, if_neg (by simpa using room)]
  unfold classifyStoredChain
  rw [within]
  cases complete : chain.complete with
  | false => rfl
  | true =>
    obtain ⟨same, crc⟩ := fits.closed complete
    obtain ⟨u, declared⟩ := Option.isSome_iff_exists.mp (extent_isSome same)
    obtain ⟨value, crc⟩ := Option.isSome_iff_exists.mp crc
    simp only [declared, same, crc, ne_eq, not_true_eq_false, if_false, Bool.not_true, Bool.false_eq_true]

end ChainFacts

namespace MemberEntry
variable {added : Nat → Bool} {e : MemberEntry}

/-- The key material of an encrypted member. -/
def key (format : ArchiveFormat) (e : MemberEntry) : Option KeyMaterial :=
  match e.traits.encrypted, memberEncryption format e.encryptions with
  | true, .uniform crypt rar4Salt => some (crypt, rar4Salt)
  | _, _ => none

/-- Nothing but the totals and the checksum can still disqualify the member. -/
structure Sound (format : ArchiveFormat) (added : Nat → Bool) (e : MemberEntry) : Prop where
  unmarked : e.traits.malformed = none
  formed : chainMalformation added e.member.parts = none
  sizes : inconsistentSize e.declarations = none
  records : (memberEncryption format e.encryptions).disagreement = none
  directory : e.traits.directory = false
  redirection : e.traits.redirection = false
  solid : e.traits.solid = false
  compressed : e.traits.compressed = false
  keyed : e.traits.encrypted = (e.key format).isSome

theorem chainFacts_malformed : (e.chainFacts format added).malformed = none ↔
    e.traits.malformed = none ∧ chainMalformation added e.member.parts = none ∧ inconsistentSize e.declarations = none ∧
      (memberEncryption format e.encryptions).disagreement = none := by
  simp only [chainFacts, chainMalformation_placeChain, Option.or_eq_none_iff]

theorem Sound.classify_eq (sound : Sound format added e) :
    classify e.traits (e.chainFacts format added) (memberEncryption format e.encryptions) =
      classifyStoredChain (e.chainFacts format added) (e.key format) := by
  have unmalformed := chainFacts_malformed.mpr ⟨sound.unmarked, sound.formed, sound.sizes, sound.records⟩
  have keyed := sound.keyed
  unfold classify
  rw [unmalformed]
  simp only [sound.directory, sound.redirection, sound.solid, sound.compressed, Bool.false_eq_true, if_false, Bool.or_self]
  unfold key at keyed ⊢
  cases encrypted : e.traits.encrypted with
  | false => simp only [Bool.false_eq_true, if_false]
  | true =>
    grind

/-- A member that routes is sound. -/
theorem sound_of_routes
    (routes : (classify e.traits (e.chainFacts format added) (memberEncryption format e.encryptions)).routesDirect = true) :
    Sound format added e := by
  cases malformed : (e.chainFacts format added).malformed with
  | some reason =>
    rw [classify_of_malformed _ (by rw [malformed]; rfl)] at routes
    cases routes
  | none =>
    obtain ⟨unmarked, formed, sizes, records⟩ := chainFacts_malformed.mp malformed
    unfold classify at routes
    rw [malformed] at routes
    dsimp only at routes
    split at routes
    · cases routes
    split at routes
    · cases routes
    rename_i directory redirection
    split at routes
    · rename_i encrypted
      split at routes
      · rename_i crypt rar4Salt uniform
        split at routes
        · cases routes
        · rename_i neither
          simp only [Bool.or_eq_true, not_or, Bool.not_eq_true] at neither
          refine ⟨unmarked, formed, sizes, records, Bool.eq_false_of_not_eq_true directory,
            Bool.eq_false_of_not_eq_true redirection, neither.1, neither.2, ?_⟩
          rw [key, encrypted, uniform]
          rfl
      · cases routes
    · rename_i plain
      have plain := Bool.eq_false_of_not_eq_true plain
      split at routes
      · cases routes
      split at routes
      · cases routes
      rename_i solid compressed
      refine ⟨unmarked, formed, sizes, records, Bool.eq_false_of_not_eq_true directory,
        Bool.eq_false_of_not_eq_true redirection, Bool.eq_false_of_not_eq_true solid,
        Bool.eq_false_of_not_eq_true compressed, ?_⟩
      rw [key, plain]
      rfl

/-- A member routes when nothing disqualifies it. -/
theorem routes_iff : (e.resolve format added).member.eligibility.routesDirect = true ↔
    Sound format added e ∧ (e.chainFacts format added).Fits (e.key format) := by
  constructor
  · intro routes
    have sound := sound_of_routes routes
    exact ⟨sound, ChainFacts.fits_of_routes ((congrArg _ sound.classify_eq).symm.trans routes)⟩
  · rintro ⟨sound, fits⟩
    exact (congrArg _ (sound.classify_eq.trans fits.classify_eq)).trans (ChainFacts.state_routes _ _ _)

/-- The state of a member that routes follows from its chain. -/
theorem Sound.eligibility_eq (sound : Sound format added e) (fits : (e.chainFacts format added).Fits (e.key format)) :
    (e.resolve format added).member.eligibility =
      (e.chainFacts format added).state (e.key format) (Unrar.chainComplete e.member.parts) :=
  sound.classify_eq.trans fits.classify_eq

end MemberEntry
end Rarpar.Unrar

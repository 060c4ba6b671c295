import Rarpar.Unrar.StoredInvariant
import Mathlib.Algebra.Order.BigOperators.Group.List

namespace Rarpar.Unrar
open Option Ledger
open List hiding Vector

open StoredMemberPart (erase)

variable {ledger ledger' : Ledger} {name : String} {e e' : MemberEntry} {format : ArchiveFormat}
  {added added' : Nat → Bool} {r : Nat × MemberSnapshot}

/-- The chain of a name is well formed in the sense of its headers. -/
theorem Describes.formed_iff (described : Describes ledger name e) (sorted : ledger.Sorted)
    (bounded : ∀ r ∈ ledger, r.1 ≤ u32Max) :
    chainMalformation added e.member.parts = none ↔ WellFormed added (ledger.chainParts name) := by
  have small : ∀ p ∈ ledger.chainParts name, p.volume ≤ u32Max := by
    rw [← described.parts_eq]
    intro p member
    obtain ⟨q, there, rfl⟩ := mem_map.mp member
    exact described.bounded bounded q there
  rw [← chainMalformation_map_erase, described.parts_eq]
  exact chainMalformation_eq_none (chainParts_inOrder sorted) small

theorem Ledger.chain_ne_nil (stated : ∃ h, ledger.States name h) : ledger.chain name ≠ [] := fun empty => by
  obtain ⟨h, stated⟩ := stated
  exact chain_eq_nil_iff.mp empty h stated

/-- The headers that end the member state the same checksums. -/
def Ledger.EndsAgree (ledger : Ledger) (name : String) : Prop := ∀ r ∈ ledger.chain name, ∀ r' ∈ ledger.chain name,
  r.2.splitAfter = false → r'.2.splitAfter = false → r.2.checks = r'.2.checks

/-- In a well-formed chain one header at most ends the member. -/
theorem Ledger.ends_agree (formed : WellFormed added (ledger.chainParts name)) (sorted : ledger.Sorted) :
    ledger.EndsAgree name := by
  intro r first r' second ends ends'
  have part {r : Nat × MemberSnapshot} (member : r ∈ ledger.chain name) : r.2.toPart r.1 ∈ ledger.chainParts name :=
    mem_map_of_mem (f := fun r => r.2.toPart r.1) member
  rcases Nat.lt_trichotomy r.1 r'.1 with less | same | more
  · exact absurd (ends.symm.trans (formed.ends _ (part first) _ (part second) less)) Bool.false_ne_true
  · exact congrArg _ ((chain_sorted sorted).unique first (same ▸ second))
  · exact absurd (ends'.symm.trans (formed.ends _ (part second) _ (part first) more)) Bool.false_ne_true

/-- Two descriptions of one chain with the same mark differ in nothing but what `resolve` derives. -/
theorem Describes.strip_eq (described : Describes ledger name e) (described' : Describes ledger' name e')
    (same : ledger.chain name = ledger'.chain name) (some_ : ledger.chain name ≠ []) (agree : ledger.EndsAgree name)
    (marks : e.traits.malformed = e'.traits.malformed) (traits : ∀ t, e.traits.has t = e'.traits.has t) : e.strip = e'.strip := by
  have parts : e.member.parts.map erase = e'.member.parts.map erase := by
    rw [described.parts_eq, described'.parts_eq, chainParts, chainParts, same]
  have first : e.member.firstVolume = e'.member.firstVolume := by
    obtain ⟨r, member, least⟩ := described.first_mem some_
    obtain ⟨r', member', least'⟩ := described'.first_mem (same ▸ some_)
    have low := described.first_le r' (same ▸ member')
    have low' := described'.first_le r (same ▸ member)
    omega
  have checks : e.member.checks = e'.member.checks := by
    have other := described'.checks_eq
    rw [← same] at other
    rcases described.checks_eq with ⟨r, member, ends, known⟩ | ⟨none_, known⟩
    · rcases other with ⟨r', member', ends', known'⟩ | ⟨none_, _⟩
      · rw [known, known', agree r member r' member' ends ends']
      · exact absurd (ends.symm.trans (none_ r member)) Bool.false_ne_true
    · grind
  have traits_ : e.traits = e'.traits := MemberTraits.ext_has marks traits
  simp only [StoredMember.checks, Prod.mk.injEq] at checks
  obtain ⟨crc, blake2, mac⟩ := checks
  simp only [MemberEntry.strip, MemberEntry.mk.injEq, StoredMember.mk.injEq]
  refine ⟨⟨described.name_eq.trans described'.name_eq.symm, first, trivial, crc, blake2, mac, parts, trivial, trivial⟩, traits_, ?_, ?_⟩
  · rw [described.declarations_eq, described'.declarations_eq, same]
  · rw [described.encryptions_eq, described'.encryptions_eq, same]

section
variable (described : Describes ledger name e) (described' : Describes ledger name e') (stated : ∃ h, ledger.States name h)
  (settled : e.resolve format added = e) (settled' : e'.resolve format added = e')
include described described' stated settled settled'

/-- What the accepted volumes say about a member determines it, up to its mark and its checksums. -/
theorem Describes.unique (agree : ledger.EndsAgree name) (marks : e.traits.malformed = e'.traits.malformed) : e = e' := by
  have traits (t : Trait) : e.traits.has t = e'.traits.has t := by
    rw [Bool.eq_iff_iff, described.traits_iff t, described'.traits_iff t]
  rw [← settled, ← settled', ← MemberEntry.resolve_strip, described.strip_eq described' rfl (chain_ne_nil stated) agree marks traits,
    MemberEntry.resolve_strip]

/-- What they say about a member that routes determines it. -/
theorem Describes.routable_unique (sorted : ledger.Sorted) (bounded : ∀ r ∈ ledger, r.1 ≤ u32Max)
    (routes : e.member.eligibility.routesDirect = true) : e = e' := by
  have routes := settled.symm ▸ routes
  obtain ⟨sound, _⟩ := MemberEntry.routes_iff.mp routes
  have formed := (described.formed_iff sorted bounded).mp sound.formed
  have unmarked' : e'.traits.malformed = none := by
    rw [← not_isSome_iff_eq_none, described'.malformed_iff, ← described.malformed_iff, sound.unmarked]
    exact Bool.false_ne_true
  exact described.unique described' stated settled settled' (ends_agree formed sorted) (sound.unmarked.trans unmarked'.symm)

end

/-! ### More volumes -/

/-- More volumes are accepted, and the old ones stay. -/
structure Ledger.Grows (ledger ledger' : Ledger) : Prop where
  sorted : ledger.Sorted
  sorted' : ledger'.Sorted
  bounded' : ∀ r ∈ ledger', r.1 ≤ u32Max
  sub : ∀ r ∈ ledger, r ∈ ledger'

namespace Ledger.Grows
variable (grows : ledger.Grows ledger')
include grows

theorem bounded : ∀ r ∈ ledger, r.1 ≤ u32Max := fun r there => grows.bounded' r (grows.sub r there)

theorem chain (member : r ∈ ledger.chain name) : r ∈ ledger'.chain name := by
  obtain ⟨headers, there, first⟩ := mem_chain.mp (show (r.1, r.2) ∈ ledger.chain name from member)
  exact mem_chain.mpr ⟨headers, grows.sub _ there, first⟩

theorem chain_own (member : r ∈ ledger'.chain name) {headers : List MemberSnapshot}
    (there : (r.1, headers) ∈ ledger) : r ∈ ledger.chain name := by
  obtain ⟨headers', there', first⟩ := mem_chain.mp (show (r.1, r.2) ∈ ledger'.chain name from member)
  obtain rfl : headers = headers' := grows.sorted'.unique (grows.sub _ there) there'
  exact mem_chain.mpr ⟨headers, there, first⟩

theorem states {h : MemberSnapshot} (stated : ledger.States name h) : ledger'.States name h := by
  obtain ⟨r, there, member⟩ := stated
  exact ⟨r, grows.sub r there, member⟩

theorem chainParts {p : StoredMemberPart} (member : p ∈ ledger.chainParts name) : p ∈ ledger'.chainParts name := by
  obtain ⟨r, there, rfl⟩ := mem_map.mp member
  exact mem_map_of_mem (f := fun r => r.2.toPart r.1) (grows.chain there)

theorem packedSum_le : packedSum (ledger.chainParts name) ≤ packedSum (ledger'.chainParts name) := by
  have nodup : (ledger.chainParts name).Nodup := (chainParts_inOrder grows.sorted).imp fun less same => by
    grind
  obtain ⟨parts, perm, sub⟩ : List.Subperm _ _ :=
    subperm_of_subset nodup fun p member => grows.chainParts member
  calc packedSum _ = (parts.map (·.dataSize)).sum := (perm.map _).sum_eq.symm
    _ ≤ packedSum _ := (sub.map _).sum_le_sum fun _ _ => Nat.zero_le _

/-- A well-formed chain was well formed before. -/
theorem formed (known : ∀ v, added v = true ↔ ∃ headers, (v, headers) ∈ ledger)
    (known' : ∀ v, added' v = true ↔ ∃ headers, (v, headers) ∈ ledger')
    (formed : WellFormed added' (ledger'.chainParts name)) : WellFormed added (ledger.chainParts name) := by
  refine formed.subset (fun p member => grows.chainParts member) (fun v there => ?_) fun p member there => ?_
  · obtain ⟨headers, there⟩ := (known v).mp there
    exact (known' v).mpr ⟨headers, grows.sub _ there⟩
  · obtain ⟨r, inChain, rfl⟩ := mem_map.mp member
    obtain ⟨headers, there⟩ := (known _).mp there
    exact mem_map_of_mem (f := fun r => r.2.toPart r.1) (grows.chain_own inChain there)

end Ledger.Grows

theorem keyedBy_encrypted {record : PartEncryption} {crypt : Option RarVolumeMemberEncryptionFacts}
    {rar4Salt : Option (Vector UInt8 8)} (uniform : keyedBy format record = .uniform crypt rar4Salt) :
    record.encrypted = true := by
  unfold keyedBy at uniform
  cases encrypted : record.encrypted with
  | true => rfl
  | false =>
    grind

theorem MemberEntry.key_isSome : (e.key format).isSome ↔
    e.traits.encrypted = true ∧ ∃ crypt rar4Salt, memberEncryption format e.encryptions = .uniform crypt rar4Salt := by
  unfold key
  cases e.traits.encrypted with
  | false => simp
  | true => cases memberEncryption format e.encryptions <;> simp

theorem total_eq (parts : List StoredMemberPart) : (packedTotal parts).getD u64Max = min (packedSum parts) u64Max := by
  rw [packedTotal_eq]
  grind

namespace Describes

section
variable (described : Describes ledger name e)
include described

theorem mem_encryptions (member : r ∈ ledger.chain name) : (r.1, r.2.encryption) ∈ e.encryptions := by
  rw [described.encryptions_eq]
  exact OrderedMap.mem_pick.mpr ⟨r.2, member, rfl⟩

theorem encryption_mem {a : Nat × PartEncryption} (member : a ∈ e.encryptions) :
    ∃ h, (a.1, h) ∈ ledger.chain name ∧ h.encryption = a.2 := by
  rw [described.encryptions_eq] at member
  obtain ⟨h, there, same⟩ := OrderedMap.mem_pick.mp (show (a.1, a.2) ∈ _ from member)
  exact ⟨h, there, some.inj same⟩

theorem declaration_mem {a : Nat × Nat} :
    a ∈ e.declarations ↔ ∃ h, (a.1, h) ∈ ledger.chain name ∧ h.unpackedSize = some a.2 := by
  rw [described.declarations_eq]
  exact OrderedMap.mem_pick (k := a.1) (w := a.2)

/-- Without a mark every stated header is the first of its name in its volume. -/
theorem states_iff (unmarked : e.traits.malformed = none) {h : MemberSnapshot} :
    ledger.States name h ↔ ∃ v, (v, h) ∈ ledger.chain name := by
  constructor
  · rintro ⟨r, there, member⟩
    have sound : ¬Damaged name r.2 := fun damaged => by
      have := described.malformed_iff.mpr ⟨r, there, damaged⟩
      rw [unmarked] at this
      cases this
    obtain ⟨first, rest, listed⟩ := exists_cons_of_ne_nil (ne_nil_of_mem member)
    obtain rfl : rest = [] := by
      by_contra more
      have long := length_pos_iff.mpr more
      exact sound (.inl (by rw [listed, length_cons]; omega))
    rw [listed, mem_singleton] at member
    exact ⟨r.1, mem_chain.mpr ⟨r.2, there, by rw [listed, member]; rfl⟩⟩
  · rintro ⟨v, member⟩
    exact states_of_mem_chain member

end

end Describes

theorem chainFacts_total (described : Describes ledger name e) :
    (e.chainFacts format added).total = min (packedSum (ledger.chainParts name)) u64Max := by
  rw [← described.parts_eq, ← total_eq, packedTotal_map_erase]
  rfl

/-- A member that routes after more volumes, and what was known of it before. -/
structure Grown (ledger ledger' : Ledger) (name : String) (e e' : MemberEntry) (format : ArchiveFormat)
    (added added' : Nat → Bool) : Prop extends ledger.Grows ledger' where
  described : Describes ledger name e
  described' : Describes ledger' name e'
  stated : ∃ h, ledger.States name h
  valid' : ∀ r ∈ ledger', ∀ h ∈ r.2, h.Valid
  known : ∀ v, added v = true ↔ ∃ headers, (v, headers) ∈ ledger
  known' : ∀ v, added' v = true ↔ ∃ headers, (v, headers) ∈ ledger'
  settled : e.resolve format added = e
  settled' : e'.resolve format added' = e'
  routes' : e'.member.eligibility.routesDirect = true

section Growth
variable (grown : Grown ledger ledger' name e e' format added added')
include grown

theorem Grown.fits' : e'.Sound format added' ∧ (e'.chainFacts format added').Fits (e'.key format) :=
  MemberEntry.routes_iff.mp (grown.settled'.symm ▸ grown.routes')

theorem Grown.sound' : e'.Sound format added' := grown.fits'.1

theorem Grown.unmarked : e.traits.malformed = none := by
  rw [← not_isSome_iff_eq_none, grown.described.malformed_iff]
  rintro ⟨r, there, damaged⟩
  have := grown.described'.malformed_iff.mpr ⟨r, grown.sub r there, damaged⟩
  rw [grown.sound'.unmarked] at this
  cases this

theorem Grown.has {t : Trait} (shown : e.traits.has t = true) : e'.traits.has t = true := by
  obtain ⟨h, stated, shows_⟩ := (grown.described.traits_iff t).mp shown
  exact (grown.described'.traits_iff t).mpr ⟨h, grown.states stated, shows_⟩

/-- The records of the member all agree, before and after. -/
theorem Grown.records :
    memberEncryption format e.encryptions = memberEncryption format e'.encryptions ∧
      (memberEncryption format e.encryptions).disagreement = none := by
  obtain ⟨r, member⟩ := exists_mem_of_ne_nil _ (chain_ne_nil grown.stated)
  have same' := memberEncryption_disagreement.mp grown.sound'.records
  have same : ∀ a ∈ e.encryptions, ∀ b ∈ e.encryptions, a.2 = b.2 := fun a first b second => by
    obtain ⟨h, there, own⟩ := grown.described.encryption_mem first
    obtain ⟨h', there', own'⟩ := grown.described.encryption_mem second
    rw [← own, ← own']
    exact same' _ (grown.described'.mem_encryptions (grown.chain there)) _ (grown.described'.mem_encryptions (grown.chain there'))
  refine ⟨?_, memberEncryption_disagreement.mpr same⟩
  rw [memberEncryption_eq_keyedBy same (grown.described.mem_encryptions member),
    memberEncryption_eq_keyedBy same' (grown.described'.mem_encryptions (grown.chain member))]

/-- A member is encrypted from its first part on. -/
theorem Grown.encrypted : e.traits.encrypted = e'.traits.encrypted := by
  rw [Bool.eq_iff_iff]
  refine ⟨grown.has (t := .encrypted), fun encrypted => ?_⟩
  have keyed := grown.sound'.keyed
  rw [encrypted] at keyed
  obtain ⟨_, crypt, rar4Salt, uniform⟩ := MemberEntry.key_isSome.mp keyed.symm
  obtain ⟨r, member⟩ := exists_mem_of_ne_nil _ (chain_ne_nil grown.stated)
  rw [memberEncryption_eq_keyedBy (memberEncryption_disagreement.mp grown.sound'.records)
    (grown.described'.mem_encryptions (grown.chain member))] at uniform
  obtain ⟨headers, there, first⟩ := mem_chain.mp (show (r.1, r.2) ∈ ledger.chain name from member)
  have valid := grown.valid' _ (grown.sub _ there) r.2 (mem_headersOf.mp (mem_of_mem_head? first)).1
  exact (grown.described.traits_iff .encrypted).mpr
    ⟨r.2, states_of_mem_chain member, valid.encrypted.symm.trans (keyedBy_encrypted uniform)⟩

theorem Grown.key : e.key format = e'.key format := by
  rw [MemberEntry.key, MemberEntry.key, grown.encrypted, grown.records.1]

theorem Grown.declaration {a : Nat × Nat} (member : a ∈ e.declarations) : declaredSize e'.declarations = some a.2 := by
  obtain ⟨h, there, own⟩ := grown.described.declaration_mem.mp member
  exact inconsistentSize_eq_none.mp grown.sound'.sizes a (grown.described'.declaration_mem.mpr ⟨h, grown.chain there, own⟩)

theorem Grown.declared {u : Nat} (declared : declaredSize e.declarations = some u) :
    declaredSize e'.declarations = some u := by
  obtain ⟨a, member, rfl⟩ := mem_map.mp (mem_of_mem_head? declared)
  exact grown.declaration member

theorem Grown.sizes : inconsistentSize e.declarations = none := by
  refine inconsistentSize_eq_none.mpr fun a member => ?_
  have first : declaredSize e.declarations = some _ := head?_eq_some_head (ne_nil_of_mem (mem_map_of_mem member))
  exact first.trans ((grown.declared first).symm.trans (grown.declaration member))

theorem Grown.wellFormed' : WellFormed added' (ledger'.chainParts name) :=
  (grown.described'.formed_iff grown.sorted' grown.bounded').mp grown.sound'.formed

theorem Grown.wellFormed : WellFormed added (ledger.chainParts name) := grown.toGrows.formed grown.known grown.known' grown.wellFormed'

/-- What rules a member out keeps ruling it out. -/
theorem Grown.sound : e.Sound format added := by
  have off {t : Trait} (never : e'.traits.has t = false) : e.traits.has t = false :=
    Bool.eq_false_of_not_eq_true fun shown => Bool.false_ne_true (never.symm.trans (grown.has shown))
  refine ⟨grown.unmarked, (grown.described.formed_iff grown.sorted grown.bounded).mpr grown.wellFormed, grown.sizes, grown.records.2,
    off (t := .directory) grown.sound'.directory, off (t := .redirection) grown.sound'.redirection,
    off (t := .solid) grown.sound'.solid, off (t := .compressed) grown.sound'.compressed, ?_⟩
  rw [grown.key, grown.encrypted]
  exact grown.sound'.keyed

/-- A complete member takes nothing from later volumes. -/
theorem Grown.frozen (complete : chainComplete e.member.parts = true) : e = e' := by
  rw [← chainComplete_map_erase, grown.described.parts_eq] at complete
  have parts := eq_of_complete (chainParts_inOrder grown.sorted) (chainParts_inOrder grown.sorted')
    (fun p member => grown.chainParts member) grown.wellFormed' complete
  have chain : ledger.chain name = ledger'.chain name := by
    refine (chain_sorted grown.sorted).ext (chain_sorted grown.sorted') fun r => ⟨grown.chain, fun member => ?_⟩
    have there : r.2.toPart r.1 ∈ ledger'.chainParts name := mem_map_of_mem (f := fun r => r.2.toPart r.1) member
    rw [parts] at there
    obtain ⟨q, inChain, same⟩ := mem_map.mp there
    have volume : q.1 = r.1 := congrArg StoredMemberPart.volume same
    have inChain' : (r.1, q.2) ∈ ledger'.chain name := volume ▸ show (q.1, q.2) ∈ ledger'.chain name from grown.chain inChain
    have header := (chain_sorted grown.sorted').unique inChain' member
    exact Prod.ext volume header ▸ inChain
  have unmarked := grown.unmarked
  have traits (t : Trait) : e.traits.has t = e'.traits.has t := by
    rw [Bool.eq_iff_iff, grown.described.traits_iff t, grown.described'.traits_iff t]
    simp only [grown.described.states_iff unmarked, grown.described'.states_iff grown.sound'.unmarked, chain]
  have stripped := grown.described.strip_eq grown.described' chain (chain_ne_nil grown.stated)
    (ends_agree grown.wellFormed grown.sorted) (unmarked.trans grown.sound'.unmarked.symm) traits
  have malformed : chainMalformation added e'.member.parts = chainMalformation added' e'.member.parts := by
    rw [grown.sound'.formed, ← chainMalformation_map_erase, grown.described'.parts_eq, parts, ← grown.described.parts_eq,
      chainMalformation_map_erase]
    exact (grown.described.formed_iff grown.sorted grown.bounded).mpr grown.wellFormed
  rw [← grown.settled, ← grown.settled', ← MemberEntry.resolve_strip, stripped, MemberEntry.resolve_strip,
    MemberEntry.resolve_congr malformed]

/-- A member that still routes has routed all along, and no offset has moved. -/
theorem Grown.routes :
    e.member.eligibility.routesDirect = true ∧ (∀ p ∈ e.member.parts, p.logicalOffset.isSome → p ∈ e'.member.parts) ∧
      (e.member.chainComplete = true → e = e') := by
  obtain ⟨-, fits'⟩ := grown.fits'
  refine ⟨?_, fun p member offset => ?_, fun complete => ?_⟩
  · rw [← grown.settled]
    refine MemberEntry.routes_iff.mpr ⟨grown.sound, fun declared => ?_, fun complete => ?_⟩
    · obtain ⟨u, declared⟩ := isSome_iff_exists.mp declared
      have later := grown.declared declared
      have room := fits'.room (show (declaredSize e'.declarations).isSome by rw [later]; rfl)
      have extent : (e.chainFacts format added).extent (e.key format) = (e'.chainFacts format added').extent (e'.key format) := by
        rw [grown.key]
        cases e'.key format with
        | none => exact declared.trans later.symm
        | some _ => exact congrArg (bind · align16) (declared.trans later.symm)
      rw [extent, chainFacts_total grown.described]
      rw [chainFacts_total grown.described'] at room
      have : packedSum (ledger.chainParts name) ≤ packedSum (ledger'.chainParts name) := grown.packedSum_le
      omega
    · have same := grown.frozen complete
      have closed := fits'.closed (show chainComplete e'.member.parts = true from same ▸ complete)
      subst same
      exact closed
  · rw [← grown.settled, MemberEntry.resolve] at member
    rw [← grown.settled', MemberEntry.resolve]
    rw [← placeChain_map_erase, grown.described.parts_eq] at member
    rw [← placeChain_map_erase, grown.described'.parts_eq]
    exact mem_placeChain_of_subset (chainParts_inOrder grown.sorted) (chainParts_inOrder grown.sorted')
      (fun q there => grown.chainParts there) grown.wellFormed' member offset
  · rw [← grown.settled] at complete
    exact grown.frozen complete

end Growth
end Rarpar.Unrar

import Rarpar.Unrar.StoredPass

namespace Rarpar.Unrar
open List OrderedMap Ledger MemberEntry
open StoredMemberPart (erase)

section Chains
variable {parts : List StoredMemberPart} {ledger : Ledger} {name : String} {e e' : MemberEntry}

/-! ### The parts of an entry -/

theorem inOrder_map_erase : VolumeOrder (parts.map erase) ↔ VolumeOrder parts := by
  rw [VolumeOrder, pairwise_map]
  exact Iff.rfl

theorem Ledger.chainParts_inOrder (sorted : ledger.Sorted) : VolumeOrder (ledger.chainParts name) := by
  rw [VolumeOrder, chainParts, pairwise_map]
  exact chain_sorted sorted

namespace Describes

section
variable (described : Describes ledger name e)
include described

theorem inOrder (sorted : ledger.Sorted) : VolumeOrder e.member.parts := by
  rw [← inOrder_map_erase, described.parts_eq]
  exact chainParts_inOrder sorted

/-- Every part comes from the first header of the name in its volume. -/
theorem exists_header {p : StoredMemberPart} (member : p ∈ e.member.parts) :
    ∃ h, (p.volume, h) ∈ ledger.chain name ∧ p.erase = h.toPart p.volume := by
  have erased := mem_map_of_mem (f := erase) member
  rw [described.parts_eq, chainParts] at erased
  obtain ⟨r, there, same⟩ := mem_map.mp erased
  have volume := congrArg StoredMemberPart.volume same
  exact ⟨r.2, volume ▸ there, volume ▸ same.symm⟩

theorem exists_part {r : Nat × MemberSnapshot} (there : r ∈ ledger.chain name) :
    ∃ p ∈ e.member.parts, p.erase = r.2.toPart r.1 := by
  have member : r.2.toPart r.1 ∈ ledger.chainParts name := mem_map_of_mem (f := fun r => r.2.toPart r.1) there
  rw [← described.parts_eq] at member
  obtain ⟨p, found, same⟩ := mem_map.mp member
  exact ⟨p, found, same⟩

theorem bounded (small : ∀ r ∈ ledger, r.1 ≤ u32Max) :
    ∀ p ∈ e.member.parts, p.volume ≤ u32Max := fun p member => by
  obtain ⟨h, there, _⟩ := described.exists_header member
  obtain ⟨headers, volume, _⟩ := mem_chain.mp there
  exact small _ volume

theorem congr (same : e'.strip = e.strip) : Describes ledger name e' := by
  simp only [MemberEntry.strip, MemberEntry.mk.injEq, StoredMember.mk.injEq] at same
  obtain ⟨⟨name, first, -, crc, blake2, mac, parts, -, -⟩, traits, declarations, encryptions⟩ := same
  have checks : e'.member.checks = e.member.checks := by rw [StoredMember.checks, crc, blake2, mac, StoredMember.checks]
  exact ⟨name.trans described.name_eq, parts.trans described.parts_eq, declarations.trans described.declarations_eq,
    encryptions.trans described.encryptions_eq, traits ▸ described.traits_iff, traits ▸ described.malformed_iff,
    first ▸ described.first_le, first ▸ described.first_mem, checks ▸ described.checks_eq⟩

end

end Describes

theorem memberSpans_iff (order : VolumeOrder e.member.parts) {volume : Nat} :
    e.memberSpans volume = true ↔ ∃ p ∈ e.member.parts, ∃ q ∈ e.member.parts, p.volume ≤ volume ∧ volume ≤ q.volume := by
  unfold memberSpans
  cases known : e.member.parts with
  | nil => exact iff_of_false Bool.false_ne_true fun ⟨_, member, _⟩ => absurd member not_mem_nil
  | cons first rest =>
    rw [known] at order
    have least := order.head_le
    have greatest : ∀ p ∈ first :: rest, p.volume ≤ ((first :: rest).getLast (cons_ne_nil first rest)).volume :=
      fun p member => (order.imp le_of_lt).rel_getLast_of_rel_getLast_getLast member le_rfl
    rw [getLast?_eq_some_getLast (cons_ne_nil first rest)]
    grind

theorem missingPart_congr {added added' : Nat → Bool} {expected : Nat} (order : VolumeOrder parts)
    (above : ∀ p ∈ parts, expected ≤ p.volume) (bounded : ∀ p ∈ parts, p.volume ≤ u32Max)
    (same : ∀ w, expected ≤ w → (∃ q ∈ parts, w < q.volume) → added w = added' w) :
    missingPart added expected parts = missingPart added' expected parts := by
  induction parts generalizing expected with
  | nil => rfl
  | cons h rest ih =>
    obtain ⟨before, order⟩ := pairwise_cons.mp order
    have start := above h mem_cons_self
    have small := bounded h mem_cons_self
    have next : h.volume ≤ nextVolume h.volume := le_min (Nat.le_succ _) small
    have gap : (range' expected (h.volume - expected)).find? added =
        (range' expected (h.volume - expected)).find? added' := by
      refine Roster.find?_congr fun w inside => ?_
      rw [mem_range'_1] at inside
      exact same w inside.1 ⟨h, mem_cons_self, by omega⟩
    rw [missingPart, missingPart, gap, ih order
      (fun p later => (nextVolume_le h.volume).trans (before p later))
      (fun p later => bounded p (mem_cons_of_mem h later))
      fun w low beyond => same w (by omega) (exists_mem_cons_of_exists beyond)]

/-- A chain does not notice a volume outside its span. -/
theorem chainMalformation_congr (added added' : Nat → Bool) (order : VolumeOrder parts)
    (bounded : ∀ p ∈ parts, p.volume ≤ u32Max)
    (same : ∀ w, (∃ p ∈ parts, p.volume ≤ w) → (∃ q ∈ parts, w < q.volume) → added w = added' w) :
    chainMalformation added parts = chainMalformation added' parts := by
  cases parts with
  | nil => rfl
  | cons first rest =>
    have holes := missingPart_congr order order.head_le bounded
      fun w low high => same w ⟨first, mem_cons_self, low⟩ high
    simp only [chainMalformation, holes]

end Chains

/-- What every header read from a volume satisfies. -/
structure MemberSnapshot.Valid (h : MemberSnapshot) : Prop where
  size : ∀ u, h.unpackedSize = some u → u ≤ u64Max
  encrypted : h.encryption.encrypted = h.isEncrypted

variable (format : ArchiveFormat)

theorem MemberSnapshot.fromFacts_valid (facts : RarVolumeMemberFacts) :
    (fromFacts format facts).Valid where
  size u declared := by
    obtain ⟨size, _, rfl⟩ := Option.map_eq_some_iff.mp declared
    exact Nat.le_sub_one_of_lt size.toNat_lt
  encrypted := rfl

/-! ### The frontier -/

/-- The largest number up to which all volumes were added. -/
def IsFrontier (added : Nat → Bool) : Option Nat → Prop
  | none => added 0 = false
  | some n => (∀ i ≤ n, added i = true) ∧ n ≤ u32Max ∧ ¬(n + 1 ≤ u32Max ∧ added (n + 1) = true)

theorem IsFrontier.unique {added : Nat → Bool} {f f' : Option Nat} (first : IsFrontier added f)
    (second : IsFrontier added f') : f = f' := by
  have zero {n : Nat} (known : IsFrontier added (some n)) (none_ : added 0 = false) : False :=
    Bool.false_ne_true (none_.symm.trans (known.1 0 (Nat.zero_le n)))
  have most {n m : Nat} (known : IsFrontier added (some n)) (known' : IsFrontier added (some m)) : m ≤ n := by
    by_contra above
    exact known.2.2 ⟨by have := known'.2.1; omega, known'.1 (n + 1) (by omega)⟩
  cases f with
  | none =>
    cases f' with
    | none => rfl
    | some m => exact (zero second first).elim
  | some n =>
    cases f' with
    | none => exact (zero first second).elim
    | some m => exact congrArg some (le_antisymm (most second first) (most first second))

namespace StoredLayoutBuilder

theorem frontierFrom_spec {added : Nat → Bool} (fuel : Nat) {n : Nat} (all : ∀ i ≤ n, added i = true) (small : n ≤ u32Max) :
    IsFrontier added (some (frontierFrom added fuel n)) ∨
      ((∀ i ≤ n + fuel, added i = true) ∧ n + fuel ≤ u32Max) := by
  induction fuel generalizing n with
  | zero => exact .inr ⟨all, small⟩
  | succ fuel ih =>
    rw [frontierFrom]
    by_cases next : n + 1 ≤ u32Max ∧ added (n + 1) = true
    · grind
    · rw [if_neg next]
      exact .inl ⟨all, small, next⟩

/-- The headers of the accepted volumes. -/
def ledger (s : StoredLayoutBuilder) : Ledger := OrderedMap.pick (fun record => some record.snapshots) s.volumes

variable {s : StoredLayoutBuilder} {volume : Nat} {headers : List MemberSnapshot} {name : String}

theorem mem_ledger {r : Nat × List MemberSnapshot} :
    r ∈ s.ledger ↔ ∃ record, (r.1, record) ∈ s.volumes ∧ record.snapshots = r.2 := by
  rw [show r = (r.1, r.2) from rfl, ledger, mem_pick]
  simp only [Option.some.injEq]

theorem hasVolume_iff : s.hasVolume volume = true ↔ ∃ record, (volume, record) ∈ s.volumes := by
  rw [hasVolume, ← Option.ne_none_iff_isSome, ne_eq, get_eq_none, OrderedMap.Fresh]
  grind

theorem hasVolume_iff_ledger : s.hasVolume volume = true ↔ ∃ headers, (volume, headers) ∈ s.ledger := by
  rw [hasVolume_iff]
  constructor
  · rintro ⟨record, there⟩
    exact ⟨record.snapshots, mem_ledger.mpr ⟨record, there, rfl⟩⟩
  · rintro ⟨headers, there⟩
    obtain ⟨record, there, _⟩ := mem_ledger.mp there
    exact ⟨record, there⟩

/-- Every state holds what the accepted volumes say, and every member is resolved. -/
structure Inv (s : StoredLayoutBuilder) : Prop where
  sorted : s.volumes.Sorted
  bounded : ∀ r ∈ s.ledger, r.1 ≤ u32Max
  valid : ∀ r ∈ s.ledger, ∀ h ∈ r.2, h.Valid
  distinct : DistinctNames s.entries
  extents : ∀ r ∈ s.volumes, Named (memberNames s.entries) r.2.extents (extentsOf r.2.snapshots)
  absent : ∀ name, entryOf name s.entries = none → ∀ h, ¬s.ledger.States name h
  present : ∀ name e, entryOf name s.entries = some e → ∃ h, s.ledger.States name h
  describes : ∀ name e, entryOf name s.entries = some e → Describes s.ledger name e
  resolved : ∀ name e, entryOf name s.entries = some e → e.resolve s.format s.hasVolume = e
  frontier : IsFrontier s.hasVolume s.frontier

theorem Inv.ledger_sorted (inv : s.Inv) : s.ledger.Sorted := pick_sorted _ inv.sorted

theorem new_inv : (new format).Inv where
  sorted := List.Pairwise.nil
  bounded r there := absurd there not_mem_nil
  valid r there := absurd there not_mem_nil
  distinct := nodup_nil
  extents r there := absurd there not_mem_nil
  absent name _ h stated := by
    obtain ⟨r, there, _⟩ := stated
    exact absurd there not_mem_nil
  present name e found := absurd (Roster.find_eq_some found).1 not_mem_nil
  describes name e found := absurd (Roster.find_eq_some found).1 not_mem_nil
  resolved name e found := absurd (Roster.find_eq_some found).1 not_mem_nil
  frontier := rfl

/-! ### A new volume -/

theorem advanceFrontier_format : s.advanceFrontier.format = s.format := by
  unfold advanceFrontier
  split <;> rfl

theorem advanceFrontier_volumes : s.advanceFrontier.volumes = s.volumes := by
  unfold advanceFrontier
  split <;> rfl

theorem advanceFrontier_entries : s.advanceFrontier.entries = s.entries := by
  unfold advanceFrontier
  split <;> rfl

theorem learn_format : (s.learn volume headers).format = s.format := advanceFrontier_format

theorem learn_volumes : (s.learn volume headers).volumes = s.volumes.insert volume (s.newRecord volume headers) :=
  advanceFrontier_volumes

theorem learn_entries : (s.learn volume headers).entries = (s.markedEntries volume headers).map fun e =>
    if e.memberSpans volume then e.resolve s.format (s.learn volume headers).hasVolume else e := by
  conv_lhs => rw [learn]
  rw [advanceFrontier_entries, advanceFrontier_format]
  rfl

/-- The new volume is known besides the old ones. -/
theorem Inv.learn_hasVolume_iff (inv : s.Inv) (fresh : OrderedMap.Fresh volume s.volumes) {v : Nat} :
    (s.learn volume headers).hasVolume v = true ↔ v = volume ∨ s.hasVolume v = true := by
  rw [hasVolume_iff, hasVolume_iff, learn_volumes]
  simp only [mem_insert inv.sorted fresh, Prod.mk.injEq, exists_or]
  refine or_congr ⟨fun ⟨_, same, _⟩ => same, fun same => ⟨_, same, rfl⟩⟩ Iff.rfl

theorem Inv.learn_ledger (inv : s.Inv) (fresh : OrderedMap.Fresh volume s.volumes) :
    (s.learn volume headers).ledger = insert volume headers s.ledger := by
  rw [ledger, learn_volumes, pick_insert _ inv.sorted fresh]
  rfl

theorem Inv.ledger_fresh (_ : s.Inv) (fresh : OrderedMap.Fresh volume s.volumes) : OrderedMap.Fresh volume s.ledger :=
  pick_fresh _ fresh

/-- The mark of an entry, if there is one. -/
def markOf (entry : Option MemberEntry) : Option MalformedReason := entry.bind (·.traits.malformed)

/-- The entries after the headers and the overlaps of a volume. -/
theorem Inv.marked_spec (inv : s.Inv) (volume : Nat) (headers : List MemberSnapshot) :
    DistinctNames (s.markedEntries volume headers) ∧
      memberNames s.entries <+: memberNames (s.markedEntries volume headers) ∧
      Named (memberNames (s.markedEntries volume headers)) (s.newRecord volume headers).extents (extentsOf headers) ∧
      ∀ name, entryOf name (s.markedEntries volume headers) =
        if name ∈ overlapMarks none (extentsOf headers)
        then (absorbAll name volume false (headersOf name headers) (entryOf name s.entries)).map
          (markMalformed (.overlappingParts volume))
        else absorbAll name volume false (headersOf name headers) (entryOf name s.entries) := by
  have empty : Named (memberNames s.entries) [] [] := rfl
  obtain ⟨distinct, entries, before, under⟩ := HeaderPass.run_spec
    (p := ⟨s.entries, [], ⟨[], []⟩, []⟩) inv.distinct empty volume headers
  have sorted := under.sort
  rw [nil_append] at sorted
  obtain ⟨names, marked⟩ := markAll_spec distinct _ sorted.marks
  refine ⟨distinct.congr names, names ▸ before, names ▸ sorted, fun name => ?_⟩
  rw [markedEntries]
  refine (marked name).trans ?_
  rw [entries name]
  rfl

/-- The entry of a name without a header in the new volume is kept. -/
theorem Inv.marked_other (inv : s.Inv) (none_ : headersOf name headers = []) :
    entryOf name (s.markedEntries volume headers) = entryOf name s.entries := by
  obtain ⟨_, _, _, entry⟩ := inv.marked_spec volume headers
  have unmarked : name ∉ overlapMarks none _ := fun marked =>
    Damaged.headersOf_ne_nil (.inr marked) none_
  rw [entry name, if_neg unmarked, none_]
  rfl

theorem Inv.learn_entryOf (name : String) : entryOf name (s.learn volume headers).entries =
    (entryOf name (s.markedEntries volume headers)).map fun e =>
      if e.memberSpans volume then e.resolve s.format (s.learn volume headers).hasVolume else e := by
  rw [learn_entries]
  refine Roster.find_map (fun e => ?_) name _
  split <;> rfl

theorem learn_memberNames : memberNames (s.learn volume headers).entries = memberNames (s.markedEntries volume headers) := by
  rw [learn_entries, memberNames, memberNames, map_map]
  refine map_congr_left fun e _ => ?_
  rw [Function.comp_apply]
  split <;> rfl

theorem learn_frontier_eq : (s.learn volume headers).frontier = if (s.learn volume headers).hasVolume 0
    then some (frontierFrom (s.learn volume headers).hasVolume (s.learn volume headers).volumes.length (s.frontier.getD 0))
    else s.frontier := by
  have has : (s.learn volume headers).hasVolume = StoredLayoutBuilder.hasVolume
      { s with
        entries := s.markedEntries volume headers
        volumes := s.volumes.insert volume (s.newRecord volume headers) } := by
    funext v
    rw [hasVolume, hasVolume, learn_volumes]
  rw [has, learn_volumes]
  unfold StoredLayoutBuilder.learn advanceFrontier
  split <;> rfl

/-- All volumes up to a number take as many records. -/
theorem lt_length {n : Nat} (all : ∀ i ≤ n, s.hasVolume i = true) : n < s.volumes.length := by
  have sub : range (n + 1) ⊆ s.volumes.map (·.1) := fun i member => by
    obtain ⟨record, there⟩ := hasVolume_iff.mp (all i (by rw [mem_range] at member; omega))
    exact mem_map_of_mem (f := fun r : Nat × VolumeRecord => r.1) there
  have count := (subperm_of_subset nodup_range sub).length_le
  rw [length_range, length_map] at count
  exact count

section
variable (inv : s.Inv) (fresh : OrderedMap.Fresh volume s.volumes)
include inv fresh

/-- The entry of a name with headers in the new volume describes them; the first mark stays. -/
theorem Inv.marked_own (some_ : headersOf name headers ≠ []) :
    ∃ e, entryOf name (s.markedEntries volume headers) = some e ∧ Describes (insert volume headers s.ledger) name e ∧
      e.traits.malformed = (markOf (entryOf name s.entries)).or (damage name volume headers) := by
  obtain ⟨_, _, _, entry⟩ := inv.marked_spec volume headers
  obtain ⟨h, rest, own⟩ := exists_cons_of_ne_nil some_
  obtain ⟨before, known, described, mark, start⟩ : ∃ before, (entryOf name s.entries).getD (MemberEntry.new name volume) = before ∧
      Describes s.ledger name before ∧ before.traits.malformed = markOf (entryOf name s.entries) ∧
      (s.ledger.chain name = [] → before.member.firstVolume = volume) := by
    cases found : entryOf name s.entries with
    | none => exact ⟨_, rfl, Describes.new (inv.absent name found), rfl, fun _ => rfl⟩
    | some e =>
      refine ⟨e, rfl, inv.describes name e found, rfl, fun empty => ?_⟩
      obtain ⟨h, stated⟩ := inv.present name e found
      exact absurd stated (chain_eq_nil_iff.mp empty h)
  have absorbed : absorbAll name volume false (headersOf name headers) (entryOf name s.entries) =
      absorbAll name volume true rest (some (before.absorb volume false h)) := by
    rw [own, absorbAll, known]
  obtain ⟨e, last, member, declarations, encryptions, traits, malformed⟩ :=
    absorbAll_seen name volume rest _
  rw [last] at absorbed
  have first : before.absorb volume false h = (before.absorbTraits h).addPart volume h := rfl
  have shown (t : Trait) : e.traits.has t = true ↔
      before.traits.has t = true ∨ ∃ h ∈ headersOf name headers, h.shows t = true := by
    rw [traits t, first, addPart_traits, absorbTraits_has, Bool.or_eq_true, own,
      exists_mem_cons_iff, or_assoc]
  have twice : e.traits.malformed = before.traits.malformed.or
      (if 1 < (headersOf name headers).length then some (.duplicatePartInVolume volume) else none) := by
    rw [malformed, own]
    cases rest <;> simp [absorb, addPart_traits, absorbTraits]
  by_cases marked : name ∈ overlapMarks none (extentsOf headers)
  · have last : (e.markMalformed (.overlappingParts volume)).traits.malformed =
        before.traits.malformed.or (damage name volume headers) := by
      rw [markMalformed_eq, twice, Option.or_assoc, damage, if_pos marked]
      split <;> rfl
    refine ⟨e.markMalformed _, ?_, ?_, mark ▸ last⟩
    · grind
    · exact described.learn_own inv.ledger_sorted (inv.ledger_fresh fresh) start own member declarations encryptions
        (fun t => by rw [markMalformed_has]; exact shown t) last
  · have last : e.traits.malformed = before.traits.malformed.or (damage name volume headers) := by
      rw [twice, damage, if_neg marked]
    refine ⟨e, ?_, ?_, mark ▸ last⟩
    · rw [entry name, if_neg marked, absorbed]
    · exact described.learn_own inv.ledger_sorted (inv.ledger_fresh fresh) start own member declarations encryptions shown last

theorem Inv.learn_mark : markOf (entryOf name (s.learn volume headers).entries) =
    (markOf (entryOf name s.entries)).or (damage name volume headers) := by
  have resolved (entry : Option MemberEntry) : markOf (entry.map fun e =>
      if e.memberSpans volume then e.resolve s.format (s.learn volume headers).hasVolume else e) = markOf entry := by
    cases entry with
    | none => rfl
    | some e =>
      rw [Option.map_some]
      split <;> rfl
  rw [Inv.learn_entryOf, resolved]
  by_cases none_ : headersOf name headers = []
  · have unmarked : damage name volume headers = none :=
      Option.not_isSome_iff_eq_none.mp fun marked => (damage_isSome.mp marked).headersOf_ne_nil none_
    rw [inv.marked_other none_, unmarked, Option.or_none]
  · obtain ⟨e, found, -, mark⟩ := inv.marked_own fresh none_
    rw [found]
    exact mark

/-- Every entry after a new volume describes the accepted volumes and is resolved. -/
theorem Inv.learn_entry {e : MemberEntry} (found : entryOf name (s.learn volume headers).entries = some e) :
    Describes (s.learn volume headers).ledger name e ∧ e.resolve s.format (s.learn volume headers).hasVolume = e := by
  rw [Inv.learn_entryOf] at found
  obtain ⟨before, marked, rfl⟩ := Option.map_eq_some_iff.mp found
  rw [inv.learn_ledger fresh]
  -- resolving keeps the description and settles the entry
  have settle (described : Describes _ name before) :
      Describes (insert volume headers s.ledger) name
          (before.resolve s.format (s.learn volume headers).hasVolume) ∧
        (before.resolve s.format (s.learn volume headers).hasVolume).resolve s.format (s.learn volume headers).hasVolume =
          before.resolve s.format (s.learn volume headers).hasVolume :=
    ⟨described.congr (strip_resolve _ _ _), resolve_resolve _ _ _⟩
  by_cases none_ : headersOf name headers = []
  · rw [inv.marked_other none_] at marked
    have old := inv.describes name before marked
    have described := old.learn_other inv.ledger_sorted (inv.ledger_fresh fresh) none_
    have order := old.inOrder inv.ledger_sorted
    cases spans : before.memberSpans volume with
    | true => exact settle described
    | false =>
      refine ⟨described, ?_⟩
      -- the volume lies outside the span, so the holes of the chain are what they were
      have same := chainMalformation_congr (s.learn volume headers).hasVolume s.hasVolume order
        (old.bounded inv.bounded) fun w ⟨p, one, low⟩ ⟨q, two, high⟩ => by
          have other : w ≠ volume := by
            rintro rfl
            exact Bool.false_ne_true (spans.symm.trans ((memberSpans_iff order).mpr ⟨p, one, q, two, low, high.le⟩))
          rw [Bool.eq_iff_iff, inv.learn_hasVolume_iff fresh, or_iff_right other]
      exact (resolve_congr same).trans (inv.resolved name before marked)
  · obtain ⟨own, known, described, _⟩ := inv.marked_own fresh none_
    obtain rfl : own = before := Option.some.inj (known.symm.trans marked)
    have sorted := insert_sorted inv.ledger_sorted (inv.ledger_fresh fresh) (v := headers)
    have spans : own.memberSpans volume = true := by
      obtain ⟨h, rest, listed⟩ := exists_cons_of_ne_nil none_
      have there : (volume, h) ∈ chain name _ :=
        mem_chain.mpr ⟨headers, (mem_insert inv.ledger_sorted (inv.ledger_fresh fresh)).mpr (.inl rfl),
          by rw [listed]; rfl⟩
      obtain ⟨p, member, same⟩ := described.exists_part there
      have at_volume := congrArg StoredMemberPart.volume same
      exact (memberSpans_iff (described.inOrder sorted)).mpr ⟨p, member, p, member, at_volume.le, at_volume.ge⟩
    rw [if_pos spans]
    exact settle described

theorem Inv.learn_frontier :
    IsFrontier (s.learn volume headers).hasVolume (s.learn volume headers).frontier := by
  have old := inv.frontier
  have more {v : Nat} (there : s.hasVolume v = true) : (s.learn volume headers).hasVolume v = true :=
    (inv.learn_hasVolume_iff fresh).mpr (.inr there)
  rw [learn_frontier_eq]
  cases first : (s.learn volume headers).hasVolume 0 with
  | false =>
    rw [if_neg Bool.false_ne_true]
    cases known : s.frontier with
    | none => exact first
    | some n =>
      rw [known] at old
      exact absurd (first.symm.trans (more (old.1 0 (Nat.zero_le n)))) Bool.false_ne_true
  | true =>
    rw [if_pos rfl]
    have start : (∀ i ≤ s.frontier.getD 0, (s.learn volume headers).hasVolume i = true) ∧ s.frontier.getD 0 ≤ u32Max := by
      cases known : s.frontier with
      | none =>
        grind
      | some n =>
        rw [known] at old
        exact ⟨fun i low => more (old.1 i low), old.2.1⟩
    rcases frontierFrom_spec (s.learn volume headers).volumes.length start.1 start.2 with reached | ⟨all, _⟩
    · exact reached
    · have := lt_length all
      omega

/-- A new volume keeps the invariant. -/
theorem Inv.learn (small : volume ≤ u32Max)
    (valid : ∀ h ∈ headers, h.Valid) : (s.learn volume headers).Inv := by
  obtain ⟨distinct, before, under, _⟩ := inv.marked_spec volume headers
  have members {r : Nat × List MemberSnapshot} : r ∈ (s.learn volume headers).ledger ↔ r = (volume, headers) ∨ r ∈ s.ledger := by
    rw [inv.learn_ledger fresh]
    exact mem_insert inv.ledger_sorted (inv.ledger_fresh fresh)
  have states {name : String} {h : MemberSnapshot} :
      (s.learn volume headers).ledger.States name h ↔ h ∈ headersOf name headers ∨ s.ledger.States name h := by
    rw [inv.learn_ledger fresh]
    exact states_insert inv.ledger_sorted (inv.ledger_fresh fresh)
  refine ⟨?_, fun r there => ?_, fun r there => ?_, ?_, fun r there => ?_, fun name none_ => ?_, fun name e found => ?_,
    fun name e found => (inv.learn_entry fresh found).1, fun name e found => ?_, inv.learn_frontier fresh⟩
  · rw [learn_volumes]
    exact insert_sorted inv.sorted fresh
  · rcases members.mp there with rfl | old
    · exact small
    · exact inv.bounded r old
  · rcases members.mp there with rfl | old
    · exact valid
    · exact inv.valid r old
  · exact distinct.congr learn_memberNames
  · rw [learn_volumes] at there
    rw [learn_memberNames]
    rcases (mem_insert inv.sorted fresh).mp there with rfl | old
    · exact under
    · exact (inv.extents r old).mono before
  · rw [Inv.learn_entryOf, Option.map_eq_none_iff] at none_
    have listed : headersOf name headers = [] := by
      by_contra some_
      obtain ⟨e, known, _⟩ := inv.marked_own fresh some_
      exact absurd (known.symm.trans none_) nofun
    rw [inv.marked_other listed] at none_
    intro h stated
    rcases states.mp stated with new | old
    · rw [listed] at new
      cases new
    · exact inv.absent name none_ h old
  · rw [Inv.learn_entryOf] at found
    obtain ⟨old, known, _⟩ := Option.map_eq_some_iff.mp found
    by_cases listed : headersOf name headers = []
    · rw [inv.marked_other listed] at known
      obtain ⟨h, stated⟩ := inv.present name old known
      exact ⟨h, states.mpr (.inr stated)⟩
    · obtain ⟨h, member⟩ := exists_mem_of_ne_nil _ listed
      exact ⟨h, states.mpr (.inl member)⟩
  · rw [learn_format]
    exact (inv.learn_entry fresh found).2

end

/-! ### Runs -/

def snapshotsOf (facts : RarVolumeFacts) : List MemberSnapshot :=
  facts.members.map (MemberSnapshot.fromFacts facts.archiveFormat)

/-- The state after a volume is offered, whether it is accepted or not. -/
def offer (s : StoredLayoutBuilder) (add : UInt32 × RarVolumeFacts) : StoredLayoutBuilder :=
  match s.addVolume add.1 add.2 with
  | .ok after => after
  | .error _ => s

/-- The state after any sequence of `add_volume` calls. -/
def build (format : ArchiveFormat) (adds : List (UInt32 × RarVolumeFacts)) : StoredLayoutBuilder :=
  adds.foldl offer (new format)

section
variable (s : StoredLayoutBuilder) (add : UInt32 × RarVolumeFacts)

/-- A volume changes the state when it is new and of the right format. -/
theorem offer_eq :
    s.offer add = if add.2.archiveFormat = s.format ∧ s.volumes.get add.1.toNat = none
      then s.learn add.1.toNat (snapshotsOf add.2) else s := by
  unfold offer addVolume
  by_cases format : add.2.archiveFormat = s.format
  · simp only [ne_eq, format, not_true_eq_false, if_false, true_and]
    cases known : s.volumes.get add.1.toNat with
    | none =>
      rw [if_pos rfl, snapshotsOf, format]
    | some existing =>
      grind
  · simp only [ne_eq, format, not_false_eq_true, if_true, false_and, if_false]

theorem offer_format : (s.offer add).format = s.format := by
  rw [offer_eq]
  split
  · exact learn_format
  · rfl

end

theorem Inv.offer (inv : s.Inv) (add : UInt32 × RarVolumeFacts) : (s.offer add).Inv := by
  rw [offer_eq]
  split_ifs with accepted
  · refine inv.learn (get_eq_none.mp accepted.2) (Nat.le_sub_one_of_lt add.1.toNat_lt) fun h member => ?_
    obtain ⟨facts, _, rfl⟩ := mem_map.mp member
    exact MemberSnapshot.fromFacts_valid _ facts
  · exact inv

theorem Inv.run (inv : s.Inv) (adds : List (UInt32 × RarVolumeFacts)) : (adds.foldl StoredLayoutBuilder.offer s).Inv := by
  induction adds generalizing s with
  | nil => exact inv
  | cons add rest ih => exact ih (inv.offer add)

theorem build_inv (adds : List (UInt32 × RarVolumeFacts)) : (build format adds).Inv :=
  (new_inv format).run adds

end StoredLayoutBuilder
end Rarpar.Unrar

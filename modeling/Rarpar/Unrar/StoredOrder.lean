import Rarpar.Unrar.StoredRouting

namespace Rarpar.Unrar.StoredLayoutBuilder
open List Option

/-- The member of a name, where its bytes are routed. -/
def routable (name : String) (s : StoredLayoutBuilder) : Option StoredMember :=
  ((entryOf name s.entries).map (·.member)).filter (·.eligibility.routesDirect)

/-- The name behind a member index. -/
def nameOf (s : StoredLayoutBuilder) (index : Nat) : Option String := s.members[index]?.map (·.name)

/-- A range of a volume with its members under their names. -/
def mapNamed (s : StoredLayoutBuilder) (volume offset len : Nat) : List (MappedSlice (Option String)) :=
  (s.mapPhysicalRange volume offset len).map (MappedSlice.rename s.nameOf)

theorem nameOf_eq (s : StoredLayoutBuilder) (index : Nat) : s.nameOf index = (memberNames s.entries)[index]? := by
  rw [nameOf, members, memberNames, getElem?_map, getElem?_map, Option.map_map]
  rfl

variable {s s' : StoredLayoutBuilder} {m : StoredMember} {name : String} {e : MemberEntry}

theorem routable_eq_some :
    s.routable name = some m ↔
      ∃ e, entryOf name s.entries = some e ∧ e.member.eligibility.routesDirect = true ∧ e.member = m := by
  rw [routable, filter_eq_some_iff, map_eq_some_iff]
  grind

/-- Ranges under names depend on the routable members only. -/
theorem Inv.mapNamed_eq (inv : s.Inv) {volume : Nat} {headers : List MemberSnapshot}
    (there : (volume, headers) ∈ s.ledger) (offset len : Nat) :
    s.mapNamed volume offset len = if saturatingAdd offset len - offset = 0 then [] else
      mapExtents (fun name => name.bind s.routable) volume (saturatingAdd offset len)
        ((extentsOf headers).map (VolumeExtent.map some)) offset [] := by
  obtain ⟨record, there, rfl⟩ := mem_ledger.mp there
  unfold mapNamed mapPhysicalRange
  dsimp only
  rw [(inv.sorted.get_eq_some).mpr there]
  split
  · rfl
  · have named : record.extents.map (VolumeExtent.map s.nameOf) = (extentsOf record.snapshots).map (VolumeExtent.map some) := by
      rw [show s.nameOf = fun index => (memberNames s.entries)[index]? from funext s.nameOf_eq]
      exact inv.extents _ there
    rw [← named]
    refine mapExtents_rename s.nameOf (fun extent member => ?_) offset []
    obtain ⟨e, _, at_index, _⟩ := inv.exists_entry there member
    have known : s.members[extent.memberIndex]? = some e.member := members_getElem?.mpr ⟨e, at_index, rfl⟩
    have own : s.nameOf extent.memberIndex = some e.member.name := congrArg _ known
    rw [own, known, Option.bind_some, routable, inv.entryOf_index at_index, Option.map_some, Option.filter_filter]
    simp only [Bool.and_self]

theorem mapNamed_absent {volume : Nat} (absent : s.hasVolume volume = false) (offset len : Nat) :
    s.mapNamed volume offset len = if saturatingAdd offset len - offset = 0 then [] else
      [.unroutable (saturatingAdd offset len - offset)] := by
  have none_ := not_isSome_iff_eq_none.mp (Bool.eq_false_iff.mp absent)
  unfold mapNamed mapPhysicalRange
  dsimp only
  rw [none_]
  split <;> rfl

/-- The volumes give one account of a name: one of them at most is damaged, and the headers that end it agree. -/
structure OneAccount (ledger : Ledger) (name : String) : Prop where
  damaged : ∀ r ∈ ledger, ∀ r' ∈ ledger, Damaged name r.2 → Damaged name r'.2 → r = r'
  ends : ledger.EndsAgree name

/-- Every mark is that of an accepted volume. -/
def Traced (s : StoredLayoutBuilder) : Prop := ∀ name reason, markOf (entryOf name s.entries) = some reason →
  ∃ r ∈ s.ledger, damage name r.1 r.2 = some reason

/-- With one damaged volume at most, its mark is the one the entry has. -/
theorem Inv.marked_iff (inv : s.Inv) (traced : s.Traced) (one : OneAccount s.ledger name) (found : entryOf name s.entries = some e)
    {reason : MalformedReason} : e.traits.malformed = some reason ↔ ∃ r ∈ s.ledger, damage name r.1 r.2 = some reason := by
  have traced (reason : MalformedReason) (marked : e.traits.malformed = some reason) := traced name reason (found ▸ marked)
  refine ⟨traced reason, fun ⟨r, there, own⟩ => ?_⟩
  have damaged := damage_isSome.mp (isSome_of_eq_some own)
  obtain ⟨other, marked⟩ := isSome_iff_exists.mp ((inv.describes _ _ found).malformed_iff.mpr ⟨r, there, damaged⟩)
  obtain ⟨r', there', own'⟩ := traced other marked
  obtain rfl := one.damaged r there r' there' damaged (damage_isSome.mp (isSome_of_eq_some own'))
  rw [marked, ← own', own]

/-! ### Two states with the same volumes -/

section Same
variable (inv : s.Inv) (inv' : s'.Inv) (format : s.format = s'.format)
  (ledger : s.ledger = s'.ledger)
include ledger

theorem hasVolume_eq : s.hasVolume = s'.hasVolume := by
  funext v
  rw [Bool.eq_iff_iff, hasVolume_iff_ledger, hasVolume_iff_ledger, ledger]

include inv inv' format

theorem entry_of_ledger (found : entryOf name s.entries = some e) :
    ∃ e', entryOf name s'.entries = some e' ∧ Describes s.ledger name e' ∧ e'.resolve s.format s.hasVolume = e' := by
  cases found' : entryOf name s'.entries with
  | none =>
    obtain ⟨h, stated⟩ := inv.present name e found
    exact absurd (ledger ▸ stated) (inv'.absent name found' h)
  | some e' =>
    refine ⟨e', rfl, ledger ▸ inv'.describes name e' found', ?_⟩
    rw [format, hasVolume_eq ledger]
    exact inv'.resolved name e' found'

theorem routable_of_ledger (known : s.routable name = some m) : s'.routable name = some m := by
  obtain ⟨e, found, routes, rfl⟩ := routable_eq_some.mp known
  obtain ⟨e', found', described', settled'⟩ := entry_of_ledger inv inv' format ledger found
  have same : e = e' := (inv.describes name e found).routable_unique described' (inv.present name e found)
    (inv.resolved name e found) settled' inv.ledger_sorted inv.bounded routes
  exact routable_eq_some.mpr ⟨e', found', same ▸ routes, congrArg _ same.symm⟩

/-- What is routable follows from the accepted volumes. -/
theorem routable_eq : s.routable = s'.routable := by
  funext name
  cases known : s.routable name with
  | some m => exact (routable_of_ledger inv inv' format ledger known).symm
  | none =>
    cases known' : s'.routable name with
    | none => rfl
    | some m =>
      have back := routable_of_ledger inv' inv format.symm ledger.symm known'
      rw [known] at back
      cases back

theorem member_eq (traced : s.Traced) (traced' : s'.Traced) (one : OneAccount s.ledger name) :
    (entryOf name s.entries).map (·.member) = (entryOf name s'.entries).map (·.member) := by
  cases found : entryOf name s.entries with
  | none =>
    cases found' : entryOf name s'.entries with
    | none => rfl
    | some e' =>
      obtain ⟨e, known, _⟩ := entry_of_ledger inv' inv format.symm ledger.symm found'
      cases found.symm.trans known
  | some e =>
    obtain ⟨e', found', described', settled'⟩ := entry_of_ledger inv inv' format ledger found
    have marks : e.traits.malformed = e'.traits.malformed := Option.ext fun reason => by
      rw [inv.marked_iff traced one found, inv'.marked_iff traced' (ledger ▸ one) found', ledger]
    rw [found', (inv.describes _ _ found).unique described' (inv.present _ _ found) (inv.resolved _ _ found) settled' one.ends marks]

theorem mapNamed_eq (volume offset len : Nat) : s.mapNamed volume offset len = s'.mapNamed volume offset len := by
  cases known : s.hasVolume volume with
  | false =>
    have known' := hasVolume_eq ledger ▸ known
    rw [mapNamed_absent known, mapNamed_absent known']
  | true =>
    obtain ⟨headers, there⟩ := hasVolume_iff_ledger.mp known
    rw [inv.mapNamed_eq there, inv'.mapNamed_eq (ledger ▸ there), routable_eq inv inv' format ledger]

omit format in
theorem headerFrontier_eq : s.headerFrontier = s'.headerFrontier :=
  IsFrontier.unique inv.frontier (hasVolume_eq ledger ▸ inv'.frontier)

end Same

/-! ### The volumes of a run -/

section Runs
variable {format : ArchiveFormat} {r : Nat × List MemberSnapshot}

theorem run_format (s : StoredLayoutBuilder) (adds : List (UInt32 × RarVolumeFacts)) : (adds.foldl offer s).format = s.format := by
  induction adds generalizing s with
  | nil => rfl
  | cons add rest ih => exact (ih (s.offer add)).trans (offer_format s add)

theorem Inv.offer_ledger (inv : s.Inv) (add : UInt32 × RarVolumeFacts) :
    r ∈ (s.offer add).ledger ↔ r ∈ s.ledger ∨
      (add.2.archiveFormat = s.format ∧ s.hasVolume add.1.toNat = false ∧ r = (add.1.toNat, snapshotsOf add.2)) := by
  rw [offer_eq]
  have absent : s.volumes.get add.1.toNat = none ↔ s.hasVolume add.1.toNat = false := by
    rw [hasVolume, ← Bool.not_eq_true, not_isSome_iff_eq_none]
  by_cases accepted : add.2.archiveFormat = s.format ∧ s.volumes.get add.1.toNat = none
  · have fresh := OrderedMap.get_eq_none.mp accepted.2
    rw [if_pos accepted, inv.learn_ledger fresh, OrderedMap.mem_insert inv.ledger_sorted (inv.ledger_fresh fresh), or_comm]
    exact or_congr Iff.rfl ⟨fun same => ⟨accepted.1, absent.mp accepted.2, same⟩, fun same => same.2.2⟩
  · grind

section
variable (format : ArchiveFormat) (facts : UInt32 → RarVolumeFacts)

/-- The accepted volumes are those of the right format, whatever their order. -/
theorem mem_ledger_build (order : List UInt32) :
    r ∈ (build format (order.map fun v => (v, facts v))).ledger ↔
      ∃ v ∈ order, (facts v).archiveFormat = format ∧ r = (v.toNat, snapshotsOf (facts v)) := by
  induction order using reverseRecOn generalizing r with
  | nil => exact iff_of_false not_mem_nil fun ⟨_, member, _⟩ => absurd member not_mem_nil
  | append_singleton order v ih =>
    have inv := build_inv format (order.map fun v => (v, facts v))
    have own : (build format (order.map fun v => (v, facts v))).format = format := run_format _ _
    rw [map_append, map_singleton, build, foldl_concat]
    refine inv.offer_ledger (v, facts v) |>.trans ?_
    rw [ih, own]
    constructor
    · grind
    · rintro ⟨w, member, known, same⟩
      rcases mem_append.mp member with before | last
      · exact .inl ⟨w, before, known, same⟩
      · obtain rfl := mem_singleton.mp last
        cases there : (build format (order.map fun v => (v, facts v))).hasVolume w.toNat with
        | false => exact .inr ⟨known, rfl, same⟩
        | true =>
          obtain ⟨headers, there⟩ := hasVolume_iff_ledger.mp there
          obtain ⟨w', before, known', same'⟩ := ih.mp there
          obtain rfl : w = w' := UInt32.toNat_inj.mp (congrArg Prod.fst same')
          exact .inl ⟨w, before, known', same⟩

theorem ledger_build_eq {order order' : List UInt32}
    (same : ∀ v, v ∈ order ↔ v ∈ order') :
    (build format (order.map fun v => (v, facts v))).ledger = (build format (order'.map fun v => (v, facts v))).ledger := by
  refine (build_inv _ _).ledger_sorted.ext (build_inv _ _).ledger_sorted fun r => ?_
  rw [mem_ledger_build, mem_ledger_build]
  simp only [same]

end

theorem Inv.offer_memberNames (inv : s.Inv) (add : UInt32 × RarVolumeFacts) :
    memberNames s.entries <+: memberNames (s.offer add).entries := by
  rw [offer_eq]
  split
  · rw [learn_memberNames]
    exact (inv.marked_spec _ _).2.1
  · exact prefix_refl _

/-- Members keep their places, and accepted volumes stay. -/
theorem Inv.run_grows (inv : s.Inv) (adds : List (UInt32 × RarVolumeFacts)) :
    memberNames s.entries <+: memberNames (adds.foldl StoredLayoutBuilder.offer s).entries ∧
      ∀ r ∈ s.ledger, r ∈ (adds.foldl StoredLayoutBuilder.offer s).ledger := by
  induction adds generalizing s with
  | nil => exact ⟨prefix_refl _, fun _ there => there⟩
  | cons add rest ih =>
    obtain ⟨names, ledger⟩ := ih (inv.offer add)
    exact ⟨(inv.offer_memberNames add).trans names, fun r there => ledger r ((inv.offer_ledger add).mpr (.inl there))⟩

/-- How a member may change while volumes are added. -/
structure Evolves (m m' : StoredMember) : Prop where
  name_eq : m'.name = m.name
  ineligible : m.eligibility.routesDirect = false → m'.eligibility.routesDirect = false
  offsets : m'.eligibility.routesDirect = true → ∀ p ∈ m.parts, p.logicalOffset.isSome → p ∈ m'.parts
  settled : m.eligibility = .directEligible → m'.eligibility = .directEligible ∨ m'.eligibility.routesDirect = false

theorem Inv.run_member (inv : s.Inv) (adds : List (UInt32 × RarVolumeFacts)) {index : Nat}
    (known : s.members[index]? = some m) :
    ∃ m', (adds.foldl StoredLayoutBuilder.offer s).members[index]? = some m' ∧ Evolves m m' := by
  have inv' := inv.run adds
  obtain ⟨names, sub⟩ := inv.run_grows adds
  have format := run_format s adds
  generalize adds.foldl StoredLayoutBuilder.offer s = s' at inv' names sub format
  obtain ⟨e, at_index, rfl⟩ := members_getElem?.mp known
  have own : (memberNames s.entries)[index]? = some e.member.name := by
    rw [memberNames, getElem?_map, at_index]
    rfl
  have own' : (memberNames s'.entries)[index]? = some e.member.name := by
    obtain ⟨more, later⟩ := names
    rw [← later, List.getElem?_append_left (List.getElem?_eq_some_iff.mp own).1]
    exact own
  rw [memberNames, getElem?_map] at own'
  obtain ⟨e', at_index', same⟩ := map_eq_some_iff.mp own'
  have found := inv.entryOf_index at_index
  have found' := same ▸ inv'.entryOf_index at_index'
  have settled' := format ▸ inv'.resolved _ e' found'
  have grown (routes : e'.member.eligibility.routesDirect = true) :
      Grown s.ledger s'.ledger e.member.name e e' s.format s.hasVolume s'.hasVolume :=
    ⟨⟨inv.ledger_sorted, inv'.ledger_sorted, inv'.bounded, sub⟩, inv.describes _ e found, inv'.describes _ e' found',
      inv.present _ e found, inv'.valid, fun v => hasVolume_iff_ledger, fun v => hasVolume_iff_ledger,
      inv.resolved _ e found, settled', routes⟩
  refine ⟨e'.member, members_getElem?.mpr ⟨e', at_index', rfl⟩, same, fun out => ?_, fun routes => (grown routes).routes.2.1,
    fun direct => ?_⟩
  · exact Bool.eq_false_of_not_eq_true fun routes => Bool.false_ne_true (out.symm.trans (grown routes).routes.1)
  · cases routes : e'.member.eligibility.routesDirect with
    | false => exact .inr rfl
    | true =>
      obtain ⟨routes_, _, frozen⟩ := (grown routes).routes
      have state := (MemberEntry.eligibility_eq (inv.settled at_index) routes_).2
      have complete : chainComplete e.member.parts = true := by
        have resolved := congrArg MemberEligibility.resolved state
        rw [direct, ChainFacts.state_resolved] at resolved
        exact resolved.symm
      have complete : e.member.chainComplete = true :=
        (congrArg (·.member.chainComplete) (inv.settled at_index)).symm.trans complete
      exact .inl (frozen complete ▸ direct)

/-- The layout does not depend on the order of arrival, and no routed byte moves. -/
theorem arrival_order (format : ArchiveFormat) :
    (∀ (facts : UInt32 → RarVolumeFacts) (order order' : List UInt32), (∀ v, v ∈ order ↔ v ∈ order') →
      (build format (order.map fun v => (v, facts v))).routable = (build format (order'.map fun v => (v, facts v))).routable ∧
      (∀ volume offset len, (build format (order.map fun v => (v, facts v))).mapNamed volume offset len =
        (build format (order'.map fun v => (v, facts v))).mapNamed volume offset len) ∧
      (build format (order.map fun v => (v, facts v))).headerFrontier =
        (build format (order'.map fun v => (v, facts v))).headerFrontier) ∧
    ∀ (adds more : List (UInt32 × RarVolumeFacts)) (index : Nat) (m : StoredMember),
      (build format adds).members[index]? = some m →
        ∃ m', (build format (adds ++ more)).members[index]? = some m' ∧ Evolves m m' := by
  refine ⟨fun facts order order' same => ?_, fun adds more index m known => ?_⟩
  · have ledger := ledger_build_eq format facts same
    have inv := build_inv format (order.map fun v => (v, facts v))
    have inv' := build_inv format (order'.map fun v => (v, facts v))
    have formats : (build format (order.map fun v => (v, facts v))).format =
        (build format (order'.map fun v => (v, facts v))).format := (run_format _ _).trans (run_format _ _).symm
    exact ⟨routable_eq inv inv' formats ledger, mapNamed_eq inv inv' formats ledger, headerFrontier_eq inv inv' ledger⟩
  · rw [build, foldl_append]
    exact (build_inv format adds).run_member more known

theorem Traced.offer (traced : s.Traced) (inv : s.Inv) (add : UInt32 × RarVolumeFacts) : (s.offer add).Traced := by
  rw [offer_eq]
  split_ifs with accepted
  · have fresh := OrderedMap.get_eq_none.mp accepted.2
    intro name reason marked
    rw [inv.learn_mark fresh] at marked
    simp only [inv.learn_ledger fresh, OrderedMap.mem_insert inv.ledger_sorted (inv.ledger_fresh fresh)]
    rcases or_eq_some_iff.mp marked with old | ⟨_, here⟩
    · obtain ⟨r, there, same⟩ := traced name reason old
      exact ⟨r, .inr there, same⟩
    · exact ⟨_, .inl rfl, here⟩
  · exact traced

theorem build_traced (format : ArchiveFormat) (adds : List (UInt32 × RarVolumeFacts)) : (build format adds).Traced := by
  induction adds using reverseRecOn with
  | nil => exact fun _ _ marked => nomatch marked
  | append_singleton front add ih =>
    rw [build, foldl_concat]
    exact ih.offer (build_inv format front) add

/-- A volume that has a member twice, with a checksum of its own. -/
def doubled (crc : UInt32) : RarVolumeFacts :=
  { lastPosition with members := (lastPosition.members ++ lastPosition.members).map fun m => { m with dataCrc32 := some crc } }

end Runs
end Rarpar.Unrar.StoredLayoutBuilder

import Rarpar.Unrar.StoredMapping
import Rarpar.Unrar.StoredStability

namespace Rarpar.Unrar
open List Ledger

/-! ### Extents of one volume -/

section Extents
variable {ι : Type} {extents : List (VolumeExtent ι)} {x : Nat}

theorem sortExtents_sorted (extents : List (VolumeExtent ι)) :
    (sortExtents extents).Pairwise fun a b => a.dataOffset ≤ b.dataOffset :=
  haveI : Std.Total fun a b : VolumeExtent ι => a.dataOffset ≤ b.dataOffset := ⟨fun a b => le_total a.dataOffset b.dataOffset⟩
  haveI : IsTrans (VolumeExtent ι) fun a b => a.dataOffset ≤ b.dataOffset := ⟨fun _ _ _ => le_trans⟩
  pairwise_insertionSort _ extents

/-- Extents over a common byte are all marked. -/
theorem marked_of_covers (sorted : extents.Pairwise fun a b => a.dataOffset ≤ b.dataOffset) :
    extents.Pairwise fun a b => a.covers x = true → b.covers x = true →
      a.memberIndex ∈ overlapMarks none extents ∧ b.memberIndex ∈ overlapMarks none extents := by
  have marks := overlapMarks_eq_sweep none extents
  have starts : ((extents.filter fun extent => extent.dataSize ≠ 0).map VolumeExtent.toSpan).Pairwise
      fun s t => s.start ≤ t.start := pairwise_map.mpr (sorted.filter _)
  have swept := Span.sweep_complete starts none
  rw [← marks, pairwise_map, pairwise_filter] at swept
  refine swept.imp fun {a b} found inA inB => ?_
  rw [VolumeExtent.covers_iff] at inA inB
  have size {extent : VolumeExtent ι} (low : extent.dataOffset ≤ x)
      (high : x < saturatingAdd extent.dataOffset extent.dataSize) : extent.dataSize ≠ 0 := fun empty => by
    rw [empty] at high
    have := high.trans_le (min_le_left _ _)
    omega
  exact found (decide_eq_true (size inA.1 inA.2)) (decide_eq_true (size inB.1 inB.2)) (inB.1.trans_lt inA.2)

/-- An unmarked extent is the only one over its bytes. -/
theorem find?_covers {extent : VolumeExtent ι} {marks : List ι}
    (apart : extents.Pairwise fun a b => a.covers x = true → b.covers x = true → a.memberIndex ∈ marks ∧ b.memberIndex ∈ marks)
    (member : extent ∈ extents) (inside : extent.covers x = true) (unmarked : extent.memberIndex ∉ marks) :
    extents.find? (·.covers x) = some extent := by
  induction extents with
  | nil => cases member
  | cons first rest ih =>
    obtain ⟨meets, apart⟩ := pairwise_cons.mp apart
    rcases mem_cons.mp member with rfl | later
    · exact find?_cons_of_pos inside
    · grind

end Extents

section
variable {names : List String} {extents : List (VolumeExtent Nat)} {named : List (VolumeExtent String)}
  (under : Named names extents named)
include under

theorem Named.sorted (sorted : named.Pairwise fun a b => a.dataOffset ≤ b.dataOffset) :
    extents.Pairwise fun a b => a.dataOffset ≤ b.dataOffset := by
  have offsets : extents.map (·.dataOffset) = named.map (·.dataOffset) := by
    have same := congrArg (map (·.dataOffset)) under
    rw [map_map, map_map] at same
    exact same
  have mapped := pairwise_map.mpr sorted
  rw [← offsets] at mapped
  exact pairwise_map.mp mapped

theorem Named.exists_extent {extent : VolumeExtent String} (member : extent ∈ named) :
    ∃ index, names[index]? = some extent.memberIndex ∧ ⟨index, extent.dataOffset, extent.dataSize⟩ ∈ extents := by
  have mapped := mem_map_of_mem (f := VolumeExtent.map some) member
  rw [← show _ = named.map _ from under] at mapped
  obtain ⟨⟨index, offset, size⟩, there, same⟩ := mem_map.mp mapped
  simp only [VolumeExtent.map, VolumeExtent.mk.injEq] at same
  obtain ⟨own, rfl, rfl⟩ := same
  exact ⟨index, own, there⟩

end

/-- The headers kept are the first ones of their names. -/
theorem mem_keptHeaders {seen : List String} {headers : List MemberSnapshot} {h : MemberSnapshot} :
    h ∈ keptHeaders seen headers ↔ h.name ∉ seen ∧ (headersOf h.name headers).head? = some h := by
  induction headers generalizing seen with
  | nil => exact iff_of_false not_mem_nil fun found => absurd found.2 nofun
  | cons first rest ih =>
    by_cases same : first.name = h.name
    · have head : (headersOf h.name (first :: rest)).head? = some first := by
        rw [headersOf, filter_cons_of_pos (by simpa using same)]
        rfl
      rw [head, keptHeaders, same]
      grind
    · have skip : headersOf h.name (first :: rest) = headersOf h.name rest :=
        filter_cons_of_neg (by simpa using same)
      rw [skip, keptHeaders]
      by_cases known : first.name ∈ seen
      · rw [if_pos known, ih]
      · grind

theorem mem_extentsOf {headers : List MemberSnapshot} {extent : VolumeExtent String} :
    extent ∈ extentsOf headers ↔
      ∃ h, (headersOf extent.memberIndex headers).head? = some h ∧ h.dataOffset = extent.dataOffset ∧
        h.dataSize = extent.dataSize := by
  rw [extentsOf, sortExtents, mem_insertionSort, mem_map]
  constructor
  · rintro ⟨h, kept, rfl⟩
    exact ⟨h, (mem_keptHeaders.mp kept).2, rfl, rfl⟩
  · rintro ⟨h, first, offset, size⟩
    obtain ⟨name, at_, len⟩ := extent
    obtain rfl : h.name = name := (mem_headersOf.mp (mem_of_mem_head? first)).2
    obtain rfl := offset
    obtain rfl := size
    exact ⟨h, mem_keptHeaders.mpr ⟨not_mem_nil, first⟩, rfl⟩

/-! ### How far a member reaches -/

/-- The declared size of a member, in whole cipher blocks when it is encrypted. -/
def StoredMember.declaredExtent (m : StoredMember) : Option Nat :=
  m.unpackedSize.map fun unpackedSize =>
    if m.eligibility.encryptedFacts.isSome then (unpackedSize + (aesBlock - 1)) / aesBlock * aesBlock else unpackedSize

/-- The totals and the checksum of the member are settled. -/
def MemberEligibility.resolved : MemberEligibility → Bool
  | directEligible => true
  | encryptedStore facts => facts.resolved
  | _ => false

section
variable (chain : ChainFacts) (key : Option KeyMaterial) (resolved : Bool)

theorem ChainFacts.state_resolved : (chain.state key resolved).resolved = resolved := by
  cases key with
  | some _ => rfl
  | none => cases resolved <;> rfl

theorem ChainFacts.state_encryptedFacts :
    (chain.state key resolved).encryptedFacts.map (·.cipherSize) = key.map fun _ => chain.extent key := by
  cases key with
  | some _ => rfl
  | none => cases resolved <;> rfl

end

theorem MemberEligibility.routes_of_resolved {eligibility : MemberEligibility} (resolved : eligibility.resolved = true) :
    eligibility.routesDirect = true := by
  cases eligibility with
  | ineligible => cases resolved
  | directEligible | provisionallyDirect | encryptedStore => rfl

theorem align16_le {size aligned : Nat} (known : align16 size = some aligned) :
    aligned = (size + (aesBlock - 1)) / aesBlock * aesBlock ∧ aligned ≤ u64Max := by
  unfold align16 at known
  dsimp only at known
  split at known
  · grind
  · cases known

section Reach
variable {e : MemberEntry} {format : ArchiveFormat} {added : Nat → Bool} (settled : e.resolve format added = e)
  (routes : e.member.eligibility.routesDirect = true)
include settled routes

theorem MemberEntry.eligibility_eq : (e.chainFacts format added).Fits (e.key format) ∧
    e.member.eligibility = (e.chainFacts format added).state (e.key format) (chainComplete e.member.parts) := by
  have routes := settled.symm ▸ routes
  obtain ⟨sound, fits⟩ := routes_iff.mp routes
  exact ⟨fits, (congrArg (·.member.eligibility) settled).symm.trans (sound.eligibility_eq fits)⟩

theorem MemberEntry.encrypted_eq : e.member.eligibility.encryptedFacts.isSome = (e.key format).isSome := by
  have known := congrArg Option.isSome
    ((e.chainFacts format added).state_encryptedFacts (e.key format) (chainComplete e.member.parts))
  rw [Option.isSome_map, Option.isSome_map] at known
  rw [(eligibility_eq settled routes).2]
  exact known

theorem MemberEntry.packedExtent_eq : e.member.packedExtent = (e.chainFacts format added).extent (e.key format) := by
  have state := (eligibility_eq settled routes).2
  have declared := (congrArg (·.member.unpackedSize) settled).symm
  have facts := (e.chainFacts format added).state_encryptedFacts (e.key format) (chainComplete e.member.parts)
  rw [← state] at facts
  unfold StoredMember.packedExtent
  cases key : e.key format with
  | none =>
    rw [key, Option.map_none, Option.map_eq_none_iff] at facts
    rw [facts]
    exact declared
  | some material =>
    grind

/-- Routing stops at the declared size. -/
theorem MemberEntry.limit_le (small : ∀ u, declaredSize e.declarations = some u → u ≤ u64Max) :
    e.member.limit ≤ u64Max ∧ ∀ n, e.member.declaredExtent = some n → e.member.limit ≤ n := by
  have declared : e.member.unpackedSize = declaredSize e.declarations := (congrArg (·.member.unpackedSize) settled).symm
  unfold StoredMember.limit StoredMember.declaredExtent
  rw [packedExtent_eq settled routes, encrypted_eq settled routes, declared]
  cases size : declaredSize e.declarations with
  | none =>
    have open_ : (e.chainFacts format added).extent (e.key format) = none := by
      cases e.key format with
      | none => exact size
      | some _ => exact congrArg (Option.bind · align16) size
    rw [open_]
    exact ⟨le_rfl, nofun⟩
  | some u =>
    cases key : e.key format with
    | none =>
      rw [show (e.chainFacts format added).extent none = some u from size]
      refine ⟨small u size, fun n same => ?_⟩
      exact (Option.some.inj same).le
    | some material =>
      have extent : (e.chainFacts format added).extent (some material) = align16 u := congrArg (Option.bind · align16) size
      rw [extent]
      cases aligned : align16 u with
      | none =>
        refine ⟨le_rfl, fun n same => ?_⟩
        obtain rfl := Option.some.inj same
        unfold align16 at aligned
        dsimp only at aligned
        split_ifs at aligned
        · exact Nat.le_of_not_le ‹_›
      | some n =>
        obtain ⟨rfl, fits⟩ := align16_le aligned
        exact ⟨fits, fun n same => (Option.some.inj same).le⟩

omit routes in
/-- A resolved member is covered by its parts up to its declared size. -/
theorem MemberEntry.covered (resolved : e.member.eligibility.resolved = true) :
    ∃ n, e.member.declaredExtent = some n ∧ e.member.packedExtent = some n ∧
      ∀ l < n, ∃ p ∈ e.member.parts, p.Holds l := by
  have routes := MemberEligibility.routes_of_resolved resolved
  obtain ⟨fits, state⟩ := eligibility_eq settled routes
  have declared : e.member.unpackedSize = declaredSize e.declarations := (congrArg (·.member.unpackedSize) settled).symm
  rw [state, ChainFacts.state_resolved] at resolved
  obtain ⟨extent, _⟩ := fits.closed resolved
  have parts : e.member.parts = (placeChain e.member.parts).1 := (congrArg (·.member.parts) settled).symm
  obtain ⟨closed, _⟩ := Bool.and_eq_true_iff.mp resolved
  obtain ⟨first, rest, listed, starts⟩ := exists_start (.inl closed)
  obtain ⟨stop, whole⟩ := Option.isSome_iff_exists.mp closed
  have place : placeChain e.member.parts = placeParts (some 0) first.volume e.member.parts := by
    rw [listed]
    exact placeChain_cons starts
  rw [place] at whole parts
  obtain ⟨total, covers⟩ := place_covers whole
  refine ⟨(e.chainFacts format added).total, ?_, ?_, fun l below => ?_⟩
  · unfold StoredMember.declaredExtent
    rw [encrypted_eq settled routes, declared]
    cases key : e.key format with
    | none =>
      rw [key] at extent
      rw [show declaredSize e.declarations = _ from extent]
      rfl
    | some material =>
      rw [key] at extent
      obtain ⟨u, size, aligned⟩ := Option.bind_eq_some_iff.mp extent
      rw [show declaredSize e.declarations = some u from size, (align16_le aligned).1]
      rfl
  · rw [packedExtent_eq settled routes, extent]
  · have most : (e.chainFacts format added).total ≤ packedSum e.member.parts := (total_eq e.member.parts).trans_le (min_le_left _ _)
    rw [parts]
    exact covers l (Nat.zero_le l) (by omega)

omit routes in
/-- No byte of a settled member lies in two parts. -/
theorem MemberEntry.holds_unique {p q : StoredMemberPart} {l : Nat} (first : p ∈ e.member.parts) (second : q ∈ e.member.parts)
    (inP : p.Holds l) (inQ : q.Holds l) : p = q := by
  have parts := (congrArg (·.member.parts) settled).symm
  rw [parts] at first second
  exact place_unique first second inP inQ

end Reach

section Target
variable {m : StoredMember} {i index l volume x : Nat}

theorem StoredMember.destination_target {offset : Option Nat} :
    (m.destination i offset).target = some (index, l) ↔ i = index ∧ offset = some l ∧ l < m.limit := by
  cases offset with
  | none => simp [destination, Destination.target]
  | some k =>
    dsimp only [destination]
    split
    · rename_i within
      split <;> simp only [Destination.target, Option.some_inj, Prod.mk.injEq] <;>
        exact and_congr_right fun _ => ⟨fun same => ⟨same, same ▸ within⟩, And.left⟩
    · refine ⟨nofun, ?_⟩
      rintro ⟨_, ⟨⟩, within⟩
      contradiction

variable {member : Nat → Option StoredMember}

theorem VolumeExtent.destination_target {extent : VolumeExtent Nat} :
    (extent.destination member volume x).target = some (index, l) ↔ extent.memberIndex = index ∧
      ∃ m, member extent.memberIndex = some m ∧ m.eligibility.routesDirect = true ∧
        m.offsetAt volume (x - extent.dataOffset) = some l ∧ l < m.limit := by
  unfold destination
  cases routed : (member extent.memberIndex).filter (·.eligibility.routesDirect) with
  | none =>
    refine ⟨nofun, ?_⟩
    rintro ⟨_, m, known, routes, _⟩
    rw [known, Option.filter_some, if_pos routes] at routed
    cases routed
  | some m =>
    obtain ⟨known, routes⟩ := Option.filter_eq_some_iff.mp routed
    rw [StoredMember.destination_target]
    refine and_congr_right fun _ => ⟨fun place => ⟨m, known, routes, place⟩, ?_⟩
    rintro ⟨m', known', _, place⟩
    obtain rfl := Option.some.inj (known.symm.trans known')
    exact place

end Target

namespace StoredLayoutBuilder
variable {s : StoredLayoutBuilder} {volume x index l : Nat}

/-- Where a byte of a volume belongs. -/
def destination (s : StoredLayoutBuilder) (volume x : Nat) : Destination Nat :=
  match s.volumes.get volume with
  | none => .unroutable
  | some record => Unrar.destination (fun index => s.members[index]?) volume record.extents x

/-- Some range is mapped with the byte at `x` going to byte `l` of a member. -/
def RoutesTo (s : StoredLayoutBuilder) (volume x index l : Nat) : Prop :=
  ∃ offset len i, x = offset + i ∧
    ((bytesOf (s.mapPhysicalRange volume offset len))[i]?).bind Destination.target = some (index, l)

theorem members_getElem? {m : StoredMember} : s.members[index]? = some m ↔ ∃ e, s.entries[index]? = some e ∧ e.member = m := by
  rw [members, getElem?_map, Option.map_eq_some_iff]

/-- A byte goes to a member through the first extent over it. -/
theorem destination_target : (s.destination volume x).target = some (index, l) ↔
    ∃ record extent e, s.volumes.get volume = some record ∧ record.extents.find? (·.covers x) = some extent ∧
      extent.memberIndex = index ∧ s.entries[index]? = some e ∧ e.member.eligibility.routesDirect = true ∧
      e.member.offsetAt volume (x - extent.dataOffset) = some l ∧ l < e.member.limit := by
  unfold destination
  cases s.volumes.get volume with
  | none => simp [Destination.target]
  | some record =>
    dsimp only [Unrar.destination]
    cases ahead : record.extents.find? (·.covers x) with
    | none => simp [Destination.target, ahead]
    | some extent =>
      rw [VolumeExtent.destination_target]
      constructor
      · rintro ⟨rfl, m, known, facts⟩
        obtain ⟨e, at_index, rfl⟩ := members_getElem?.mp known
        exact ⟨record, extent, e, rfl, ahead, rfl, at_index, facts⟩
      · rintro ⟨_, _, e, ⟨⟩, same, rfl, at_index, facts⟩
        obtain rfl := Option.some.inj (ahead.symm.trans same)
        exact ⟨rfl, e.member, members_getElem?.mpr ⟨e, at_index, rfl⟩, facts⟩

namespace Inv
variable (inv : s.Inv) {record : VolumeRecord}
include inv

section
variable {e : MemberEntry} (at_index : s.entries[index]? = some e)
include at_index

theorem entryOf_index : entryOf e.member.name s.entries = some e :=
  Roster.Distinct.find_of_getElem? inv.distinct at_index

theorem settled : e.resolve s.format s.hasVolume = e :=
  inv.resolved _ e (inv.entryOf_index at_index)

theorem declared_le {u : Nat} (declared : declaredSize e.declarations = some u) : u ≤ u64Max := by
  obtain ⟨a, member, rfl⟩ := mem_map.mp (mem_of_mem_head? declared)
  obtain ⟨h, there, own⟩ := (inv.describes _ e (inv.entryOf_index at_index)).declaration_mem.mp member
  obtain ⟨headers, inLedger, first⟩ := mem_chain.mp there
  exact (inv.valid _ inLedger h (mem_headersOf.mp (mem_of_mem_head? first)).1).size _ own

theorem limit_le (routes : e.member.eligibility.routesDirect = true) :
    e.member.limit ≤ u64Max ∧ ∀ n, e.member.declaredExtent = some n → e.member.limit ≤ n :=
  MemberEntry.limit_le (inv.settled at_index) routes fun _ declared => inv.declared_le at_index declared

end

theorem extents_sorted (there : (volume, record) ∈ s.volumes) :
    record.extents.Pairwise fun a b => a.dataOffset ≤ b.dataOffset :=
  (inv.extents _ there).sorted (sortExtents_sorted _)

/-- Every range is mapped byte by byte. -/
theorem bytesOf_mapPhysicalRange (volume offset len : Nat) :
    bytesOf (s.mapPhysicalRange volume offset len) = valuesOn (s.destination volume) offset (offset + min len (u64Max - offset)) := by
  have stop : saturatingAdd offset len - offset = min len (u64Max - offset) := by
    unfold saturatingAdd
    omega
  unfold mapPhysicalRange
  dsimp only
  rw [stop]
  split_ifs with empty
  · rw [empty, valuesOn_empty (Nat.add_zero _).le]
    rfl
  · have sum : saturatingAdd offset len = offset + min len (u64Max - offset) := by
      omega
    cases found : s.volumes.get volume with
    | none =>
      have all (y : Nat) : s.destination volume y = .unroutable := by
        unfold destination
        rw [found]
      rw [valuesOn_const fun y _ _ => all y, Nat.add_sub_cancel_left]
      exact append_nil _
    | some record =>
      have there := (inv.sorted.get_eq_some).mp found
      have bounded (index : Nat) (m : StoredMember) (known : s.members[index]? = some m)
          (routes : m.eligibility.routesDirect = true) : m.limit ≤ u64Max := by
        obtain ⟨e, at_index, rfl⟩ := members_getElem?.mp known
        exact (inv.limit_le at_index routes).1
      have mapped := bytesOf_mapExtents volume (inv.extents_sorted there) bounded
        (show offset + min len (u64Max - offset) ≤ u64Max by omega) offset [] (by
          show 0 + _ ≤ _
          omega)
      have each : s.destination volume = Unrar.destination (fun index => s.members[index]?) volume record.extents := by
        funext y
        unfold destination
        rw [found]
      rw [sum, each]
      exact mapped

theorem routesTo_iff : s.RoutesTo volume x index l ↔ x < u64Max ∧ (s.destination volume x).target = some (index, l) := by
  constructor
  · rintro ⟨offset, len, i, rfl, found⟩
    rw [inv.bytesOf_mapPhysicalRange] at found
    obtain ⟨byte, at_i, target⟩ := Option.bind_eq_some_iff.mp found
    have inside := (List.getElem?_eq_some_iff.mp at_i).1
    rw [length_valuesOn] at inside
    rw [getElem?_valuesOn (by omega)] at at_i
    obtain rfl := Option.some.inj at_i
    exact ⟨by omega, target⟩
  · rintro ⟨small, target⟩
    refine ⟨x, 1, 0, rfl, ?_⟩
    rw [inv.bytesOf_mapPhysicalRange, getElem?_valuesOn (by omega)]
    exact target

/-- The header behind an extent of a volume. -/
theorem exists_entry (there : (volume, record) ∈ s.volumes) {extent : VolumeExtent Nat}
    (member : extent ∈ record.extents) :
    ∃ e h, s.entries[extent.memberIndex]? = some e ∧ (volume, h) ∈ s.ledger.chain e.member.name ∧
      h.dataOffset = extent.dataOffset ∧ h.dataSize = extent.dataSize := by
  obtain ⟨name, named, own⟩ := (inv.extents _ there).exists_name member
  rw [memberNames, getElem?_map] at named
  obtain ⟨e, at_index, rfl⟩ := Option.map_eq_some_iff.mp named
  obtain ⟨h, first, offset, size⟩ := mem_extentsOf.mp own
  exact ⟨e, h, at_index, mem_chain.mpr ⟨_, mem_ledger.mpr ⟨record, there, rfl⟩, first⟩, offset, size⟩

/-- A routed byte lies in a part of its member, as far into the part as into the extent. -/
theorem routed_part (routed : s.RoutesTo volume x index l) :
    ∃ e, s.entries[index]? = some e ∧ e.member.eligibility.routesDirect = true ∧ l < e.member.limit ∧
      ∃ p ∈ e.member.parts, p.volume = volume ∧ p.Holds l ∧
        ∀ b, p.logicalOffset = some b → p.dataOffset ≤ x ∧ l = b + (x - p.dataOffset) := by
  obtain ⟨_, target⟩ := inv.routesTo_iff.mp routed
  obtain ⟨record, extent, e, found, ahead, rfl, at_index, direct, place, within⟩ := destination_target.mp target
  refine ⟨e, at_index, direct, within, ?_⟩
  obtain ⟨e', h, at_index', inChain, offset, size⟩ :=
    inv.exists_entry ((inv.sorted.get_eq_some).mp found) (mem_of_find?_eq_some ahead)
  obtain rfl := Option.some.inj (at_index.symm.trans at_index')
  have inside := VolumeExtent.covers_iff.mp (find?_some ahead)
  obtain ⟨b, base, sum⟩ := Option.bind_eq_some_iff.mp place
  obtain ⟨p, part, atPart⟩ := Option.bind_eq_some_iff.mp base
  obtain ⟨rfl, _⟩ := checkedAdd_eq_some.mp sum
  have own : p.volume = volume := by simpa using find?_some part
  have member := mem_of_find?_eq_some part
  have described := inv.describes _ e (inv.entryOf_index at_index)
  obtain ⟨h', inChain', erased⟩ := described.exists_header member
  rw [own] at inChain'
  obtain rfl : h' = h := (chain_sorted inv.ledger_sorted).unique inChain' inChain
  have offset' : p.dataOffset = extent.dataOffset := (congrArg StoredMemberPart.dataOffset erased).trans offset
  have size' : p.dataSize = extent.dataSize := (congrArg StoredMemberPart.dataSize erased).trans size
  have high := inside.2.trans_le (min_le_left _ _)
  refine ⟨p, member, own, ⟨b, atPart, Nat.le_add_right _ _, by omega⟩, fun b' same => ?_⟩
  obtain rfl := Option.some.inj (atPart.symm.trans same)
  rw [offset']
  exact ⟨inside.1, rfl⟩

/-- No two physical bytes are routed to one byte of a member. -/
theorem routesTo_injective {volume' x' : Nat} (first : s.RoutesTo volume x index l)
    (second : s.RoutesTo volume' x' index l) : volume = volume' ∧ x = x' := by
  obtain ⟨e, at_index, _, _, p, inP, rfl, holdsP, placeP⟩ := inv.routed_part first
  obtain ⟨e', at_index', _, _, q, inQ, rfl, holdsQ, placeQ⟩ := inv.routed_part second
  obtain rfl : e = e' := Option.some.inj (at_index.symm.trans at_index')
  obtain rfl := MemberEntry.holds_unique (inv.settled at_index) inP inQ holdsP holdsQ
  obtain ⟨b, base, _⟩ := holdsP
  have := placeP b base
  have := placeQ b base
  exact ⟨rfl, by omega⟩

/-- Every byte of a part of a routable member below the limit is routed from its place in the volume. -/
theorem routes_part {e : MemberEntry} (at_index : s.entries[index]? = some e)
    (routes : e.member.eligibility.routesDirect = true) {p : StoredMemberPart} (member : p ∈ e.member.parts) {b : Nat}
    (base : p.logicalOffset = some b) (low : b ≤ l) (high : l < b + p.dataSize) (within : l < e.member.limit)
    (small : p.dataOffset + (l - b) < u64Max) : s.RoutesTo p.volume (p.dataOffset + (l - b)) index l := by
  have found := inv.entryOf_index at_index
  have described := inv.describes _ e found
  obtain ⟨h, inChain, erased⟩ := described.exists_header member
  obtain ⟨headers, inLedger, first⟩ := mem_chain.mp inChain
  obtain ⟨record, there, snapshots⟩ := mem_ledger.mp inLedger
  have offset : p.dataOffset = h.dataOffset := congrArg StoredMemberPart.dataOffset erased
  have size : p.dataSize = h.dataSize := congrArg StoredMemberPart.dataSize erased
  obtain ⟨place, named, member'⟩ := (inv.extents _ there).exists_extent
    (mem_extentsOf.mpr ⟨h, snapshots ▸ first, rfl, rfl⟩ : ⟨e.member.name, h.dataOffset, h.dataSize⟩ ∈ extentsOf record.snapshots)
  -- the extent belongs to this member, since names are distinct
  have own : (memberNames s.entries)[index]? = some e.member.name := by
    rw [memberNames, getElem?_map, at_index]
    rfl
  obtain rfl : place = index := by
    obtain ⟨bound, value⟩ := List.getElem?_eq_some_iff.mp named
    obtain ⟨bound', value'⟩ := List.getElem?_eq_some_iff.mp own
    exact (List.Nodup.getElem_inj_iff inv.distinct).mp (value.trans value'.symm)
  have limit := (inv.limit_le at_index routes).1
  have inside : VolumeExtent.covers _ ⟨place, h.dataOffset, h.dataSize⟩ = true :=
    VolumeExtent.covers_iff.mpr ⟨by dsimp only; omega, lt_min (by dsimp only; omega) small⟩
  -- a member that routes was not marked by the sweep
  have unmarked : place ∉ overlapMarks none record.extents := fun marked => by
    have image := mem_map_of_mem (f := fun i => (memberNames s.entries)[i]?) marked
    rw [(inv.extents _ there).marks, named] at image
    obtain ⟨name, inMarks, same⟩ := mem_map.mp image
    obtain rfl := Option.some.inj same
    have damaged := described.malformed_iff.mpr ⟨_, inLedger, .inr (snapshots ▸ inMarks)⟩
    have routes := (inv.settled at_index).symm ▸ routes
    rw [(MemberEntry.routes_iff.mp routes).1.unmarked] at damaged
    cases damaged
  have ahead := find?_covers (marked_of_covers (inv.extents_sorted there)) member' inside unmarked
  have part : e.member.parts.find? (·.volume = p.volume) = some p := by
    cases found : e.member.parts.find? (·.volume = p.volume) with
    | none => exact absurd (decide_eq_true rfl) (find?_eq_none.mp found p member)
    | some q =>
      have same : q.volume = p.volume := by simpa using find?_some found
      rw [(described.inOrder inv.ledger_sorted).unique (mem_of_find?_eq_some found) member same]
  refine inv.routesTo_iff.mpr ⟨small, ?_⟩
  have shift : b + (p.dataOffset + (l - b) - h.dataOffset) = l := by omega
  have logical : e.member.offsetAt p.volume (p.dataOffset + (l - b) - h.dataOffset) = some l := by
    rw [StoredMember.offsetAt, part, Option.bind_some, base, Option.bind_some, checkedAdd, shift, if_pos (by omega)]
  exact destination_target.mpr
    ⟨record, _, e, (inv.sorted.get_eq_some).mpr there, ahead, rfl, at_index, routes, logical, within⟩

end Inv

theorem isChain_mapPhysicalRange (s : StoredLayoutBuilder) (volume offset len : Nat) :
    (s.mapPhysicalRange volume offset len).IsChain MappedSlice.Apart := by
  unfold mapPhysicalRange
  dsimp only
  split
  · exact isChain_nil
  split
  · exact isChain_singleton _
  · exact isChain_mapExtents isChain_nil

/-- Routing covers every range exactly, reaches no byte of a member twice or past its declared size, and reaches
every byte of a resolved member whose physical position lies below the largest `u64`. -/
theorem routing_exact (format : ArchiveFormat) (adds : List (UInt32 × RarVolumeFacts)) :
    (∀ volume offset len, (((build format adds).mapPhysicalRange volume offset len).map (·.len)).sum = min len (u64Max - offset) ∧
      ((build format adds).mapPhysicalRange volume offset len).IsChain MappedSlice.Apart ∧
      bytesOf ((build format adds).mapPhysicalRange volume offset len) =
        valuesOn ((build format adds).destination volume) offset (offset + min len (u64Max - offset))) ∧
    (∀ volume x volume' x' index l, (build format adds).RoutesTo volume x index l →
      (build format adds).RoutesTo volume' x' index l → volume = volume' ∧ x = x') ∧
    (∀ volume x index l, (build format adds).RoutesTo volume x index l →
      ∃ m, (build format adds).members[index]? = some m ∧ ∀ n, m.declaredExtent = some n → l < n) ∧
    ∀ index m, (build format adds).members[index]? = some m → m.eligibility.resolved = true →
      ∃ n, m.declaredExtent = some n ∧ ∀ l < n, ∃ p ∈ m.parts, ∃ b, p.logicalOffset = some b ∧ b ≤ l ∧ l < b + p.dataSize ∧
        (p.dataOffset + (l - b) < u64Max →
          (build format adds).RoutesTo p.volume (p.dataOffset + (l - b)) index l ∧
          ∀ volume x, (build format adds).RoutesTo volume x index l → volume = p.volume ∧ x = p.dataOffset + (l - b)) := by
  have inv := build_inv format adds
  refine ⟨fun volume offset len => ⟨?_, isChain_mapPhysicalRange _ _ _ _, inv.bytesOf_mapPhysicalRange volume offset len⟩,
    fun volume x volume' x' index l first second => inv.routesTo_injective first second,
    fun volume x index l routed => ?_, fun index m known resolved => ?_⟩
  · rw [← length_bytesOf, inv.bytesOf_mapPhysicalRange, length_valuesOn, Nat.add_sub_cancel_left]
  · obtain ⟨e, at_index, routes, within, _⟩ := inv.routed_part routed
    exact ⟨e.member, members_getElem?.mpr ⟨e, at_index, rfl⟩,
      fun n declared => within.trans_le ((inv.limit_le at_index routes).2 n declared)⟩
  · obtain ⟨e, at_index, rfl⟩ := members_getElem?.mp known
    obtain ⟨n, declared, packed, covered⟩ := MemberEntry.covered (inv.settled at_index) resolved
    refine ⟨n, declared, fun l below => ?_⟩
    obtain ⟨p, member, b, base, low, high⟩ := covered l below
    refine ⟨p, member, b, base, low, high, fun small => ?_⟩
    have limit : e.member.limit = n := by
      rw [StoredMember.limit, packed]
      rfl
    have routed := inv.routes_part at_index (MemberEligibility.routes_of_resolved resolved) member base low high
      (limit ▸ below) small
    exact ⟨routed, fun volume x other => inv.routesTo_injective other routed⟩

/-- A stored member of one byte at the last position a `u64` can name. -/
def lastPosition : RarVolumeFacts where
  format := 5
  members :=
    [{ name := "a", dataOffset := 0xffffffffffffffff, dataSize := 1, unpackedSize := some 1, dataCrc32 := some 0,
       dataBlake2Hash := none, useHashMac := false, packedCrc32 := none, packedBlake2Hash := none,
       packedHashUsesMac := false, splitBefore := false, splitAfter := false, isDirectory := false,
       isEncrypted := false, redirectionType := none, compressionMethod := 0, compressionVersion := 0,
       compressionSolid := false, encryption := none, rar4Salt := none }]

/-- The range ends before the largest `u64`, so the byte there is never routed. -/
theorem lastPosition_unrouted :
    ∃ m p, (build .rar5 [(0, lastPosition)]).members = [m] ∧ m.eligibility = .directEligible ∧ m.declaredExtent = some 1 ∧
      m.parts = [p] ∧ p.logicalOffset = some 0 ∧ p.dataSize = 1 ∧ p.dataOffset = u64Max ∧
      ∀ volume x, ¬(build .rar5 [(0, lastPosition)]).RoutesTo volume x 0 0 := by
  refine ⟨_, _, rfl, rfl, rfl, rfl, rfl, rfl, rfl, fun volume x routed => ?_⟩
  have inv := build_inv .rar5 [(0, lastPosition)]
  obtain ⟨small, _⟩ := inv.routesTo_iff.mp routed
  obtain ⟨e, at_index, _, _, p, member, _, ⟨b, base, _⟩, place⟩ := inv.routed_part routed
  have known : (build .rar5 [(0, lastPosition)]).entries[0]?.map (·.member.parts.map (·.dataOffset)) = some [u64Max] := rfl
  rw [at_index] at known
  have offsets : e.member.parts.map (·.dataOffset) = [u64Max] := Option.some.inj known
  have offset := mem_map_of_mem (f := (·.dataOffset)) member
  rw [offsets, mem_singleton] at offset
  have := (place b base).1
  omega

end StoredLayoutBuilder
end Rarpar.Unrar

import Rarpar.Unrar.StoredLedger

namespace Rarpar.Unrar
open List MemberEntry Roster

def memberNames (entries : List MemberEntry) : List String := entries.map (·.member.name)

/-- The entry of a name. -/
def entryOf (name : String) (entries : List MemberEntry) : Option MemberEntry :=
  Roster.find (·.member.name) name entries

/-- No two entries share a name. -/
def DistinctNames (entries : List MemberEntry) : Prop := (memberNames entries).Nodup

theorem DistinctNames.congr {entries entries' : List MemberEntry} (distinct : DistinctNames entries)
    (same : memberNames entries' = memberNames entries) : DistinctNames entries' := by
  rw [DistinctNames, same]
  exact distinct

/-! ### Extents under names -/

namespace VolumeExtent
variable {ι κ : Type}

def map (f : ι → κ) (extent : VolumeExtent ι) : VolumeExtent κ := ⟨f extent.memberIndex, extent.dataOffset, extent.dataSize⟩

/-- The stretch of the volume that an extent claims. -/
def toSpan (extent : VolumeExtent ι) : Span ι :=
  ⟨extent.dataOffset, saturatingAdd extent.dataOffset extent.dataSize, extent.memberIndex⟩

end VolumeExtent

theorem overlapMarks_eq_sweep {ι : Type} (covered : Option (Nat × ι)) (extents : List (VolumeExtent ι)) :
    overlapMarks covered extents =
      Span.sweep covered ((extents.filter fun extent => extent.dataSize ≠ 0).map VolumeExtent.toSpan) := by
  induction extents generalizing covered with
  | nil => cases covered <;> rfl
  | cons extent rest ih =>
    by_cases empty : extent.dataSize = 0
    · rw [overlapMarks, if_pos empty, filter_cons_of_neg (by simpa using empty)]
      exact ih covered
    · rw [overlapMarks, if_neg empty, filter_cons_of_pos (by simpa using empty), map_cons]
      cases covered with
      | none => exact ih _
      | some furthest =>
        obtain ⟨stop, owner⟩ := furthest
        dsimp only
        by_cases below : extent.dataOffset < stop
        · rw [if_pos below, ih, Span.sweep, if_pos (show extent.toSpan.start < stop from below)]
          rfl
        · rw [if_neg below, ih, Span.sweep, if_neg (show ¬extent.toSpan.start < stop from below)]
          rfl

section
variable {ι κ : Type} (f : ι → κ) (extents : List (VolumeExtent ι))

theorem overlapMarks_map :
    overlapMarks none (extents.map (VolumeExtent.map f)) = (overlapMarks none extents).map f := by
  rw [overlapMarks_eq_sweep, overlapMarks_eq_sweep, ← Span.sweep_map, filter_map, map_map, map_map]
  rfl

theorem sortExtents_map :
    sortExtents (extents.map (VolumeExtent.map f)) = (sortExtents extents).map (VolumeExtent.map f) :=
  (map_insertionSort _ _ (VolumeExtent.map f) extents fun _ _ _ _ => Iff.rfl).symm

end

/-- The extents name their members by their positions among the names. -/
def Named (names : List String) (extents : List (VolumeExtent Nat)) (named : List (VolumeExtent String)) : Prop :=
  extents.map (VolumeExtent.map (names[·]?)) = named.map (VolumeExtent.map some)

namespace Named
variable {names names' : List String} {extents : List (VolumeExtent Nat)} {named : List (VolumeExtent String)}

section
variable (under : Named names extents named)
include under

theorem exists_name {extent : VolumeExtent Nat} (member : extent ∈ extents) :
    ∃ name, names[extent.memberIndex]? = some name ∧ ⟨name, extent.dataOffset, extent.dataSize⟩ ∈ named := by
  have mapped := mem_map_of_mem (f := VolumeExtent.map (names[·]?)) member
  rw [under] at mapped
  obtain ⟨⟨name, offset, size⟩, there, same⟩ := mem_map.mp mapped
  simp only [VolumeExtent.map, VolumeExtent.mk.injEq] at same
  obtain ⟨own, rfl, rfl⟩ := same
  exact ⟨name, own.symm, there⟩

/-- More names do not disturb the positions. -/
theorem mono (before : names <+: names') : Named names' extents named := by
  rw [Named, ← show _ = named.map _ from under]
  refine map_congr_left fun extent member => ?_
  obtain ⟨name, own, _⟩ := under.exists_name member
  have later : names'[extent.memberIndex]? = some name := by
    obtain ⟨more, rfl⟩ := before
    rw [List.getElem?_append_left (List.getElem?_eq_some_iff.mp own).1]
    exact own
  simp only [VolumeExtent.map, own, later]

theorem append {extents' : List (VolumeExtent Nat)} {named' : List (VolumeExtent String)}
    (under' : Named names extents' named') :
    Named names (extents ++ extents') (named ++ named') := by
  rw [Named, map_append, map_append]
  exact congrArg₂ _ under under'

theorem sort : Named names (sortExtents extents) (sortExtents named) := by
  rw [Named, ← sortExtents_map, ← sortExtents_map]
  exact congrArg _ under

theorem marks : (overlapMarks none extents).map (names[·]?) = (overlapMarks none named).map some := by
  rw [← overlapMarks_map, ← overlapMarks_map]
  exact congrArg _ under

end

end Named

/-! ### The loop over the headers -/

section Entries
variable {entries entries' : List MemberEntry} {name : String} {h : MemberSnapshot} {volume index : Nat}
  {e : MemberEntry} {f : MemberEntry → MemberEntry}

theorem absorbTraits_name (h : MemberSnapshot) (e : MemberEntry) : (e.absorbTraits h).member.name = e.member.name := rfl

theorem markMalformed_name (reason : MalformedReason) (e : MemberEntry) :
    (e.markMalformed reason).member.name = e.member.name := rfl

/-- A change of one entry that keeps its name. -/
theorem entryOf_modify (distinct : DistinctNames entries)
    (keeps : ∀ e, (f e).member.name = e.member.name) (at_index : entries[index]? = some e) :
    entryOf name (entries.modify index f) = if e.member.name = name then some (f e) else entryOf name entries :=
  Roster.Distinct.find_modify distinct keeps at_index

theorem memberNames_modify (keeps : ∀ e, (f e).member.name = e.member.name) :
    memberNames (entries.modify index f) = memberNames entries :=
  map_key_modify keeps

theorem memberIndexFor_spec (distinct : DistinctNames entries) (h : MemberSnapshot) (volume : Nat) :
    ∃ index entries', memberIndexFor h volume entries = (index, entries') ∧ DistinctNames entries' ∧
      entries'[index]? = some ((entryOf h.name entries).getD (new h.name volume)) ∧
      (∀ name, name ≠ h.name → entryOf name entries' = entryOf name entries) ∧
      memberNames entries <+: memberNames entries' := by
  unfold memberIndexFor
  cases found : position (·.member.name) h.name entries with
  | some index =>
    obtain ⟨e, at_index, own⟩ := position_eq_some found
    have known : entryOf h.name entries = some e := own ▸ Roster.Distinct.find_of_getElem? distinct at_index
    exact ⟨index, entries, rfl, distinct, by rw [known]; exact at_index, fun _ _ => rfl, prefix_refl _⟩
  | none =>
    have absent : entryOf h.name entries = none := position_eq_none.mp found
    refine ⟨entries.length, entries ++ [new h.name volume], rfl, ?_, ?_, fun name other => ?_, ?_⟩
    · rw [DistinctNames, memberNames, map_append]
      refine List.Nodup.append distinct (nodup_singleton _) fun x first second => ?_
      obtain ⟨e, member, rfl⟩ := mem_map.mp first
      exact find_eq_none.mp absent e member (mem_singleton.mp second)
    · grind
    · have apart : (new h.name volume).member.name ≠ name := Ne.symm other
      rw [entryOf, find_append, if_neg apart, Option.or_none]
      rfl
    · rw [memberNames, memberNames, map_append]
      exact prefix_append _ _

end Entries

namespace HeaderPass
variable {p : HeaderPass} {named : List (VolumeExtent String)}

section
variable (distinct : DistinctNames p.entries) (under : Named (memberNames p.entries) p.extents named) (volume : Nat)
include distinct under volume

theorem step_spec (h : MemberSnapshot) :
    DistinctNames (p.step volume h).entries ∧
      (∀ name, entryOf name (p.step volume h).entries = if h.name = name
        then some (((entryOf name p.entries).getD (new name volume)).absorb volume (h.name ∈ p.namesHere) h)
        else entryOf name p.entries) ∧
      memberNames p.entries <+: memberNames (p.step volume h).entries ∧
      (p.step volume h).namesHere = (if h.name ∈ p.namesHere then p.namesHere else h.name :: p.namesHere) ∧
      Named (memberNames (p.step volume h).entries) (p.step volume h).extents
        (named ++ if h.name ∈ p.namesHere then [] else [h.toExtent]) := by
  obtain ⟨index, entries, found, distinct', at_index, others, before⟩ := memberIndexFor_spec distinct h volume
  generalize first : (entryOf h.name p.entries).getD _ = e at at_index
  have own : e.member.name = h.name := by
    rw [← first]
    cases known : entryOf h.name p.entries with
    | none => rfl
    | some e => exact (find_eq_some known).2
  -- the entry found or made is changed in place, first by its traits and then by its part or mark
  let last (e : MemberEntry) : MemberEntry :=
    if h.name ∈ p.namesHere then e.markMalformed (.duplicatePartInVolume volume) else e.addPart volume h
  have keeps (e : MemberEntry) : (last e).member.name = e.member.name := by
    dsimp only [last]
    split
    · rfl
    · exact addPart_name
  have stepped : (p.step volume h).entries = (entries.modify index (absorbTraits h)).modify index last ∧
      (p.step volume h).namesHere = (if h.name ∈ p.namesHere then p.namesHere else h.name :: p.namesHere) ∧
      (p.step volume h).extents = p.extents ++ if h.name ∈ p.namesHere then [] else [⟨index, h.dataOffset, h.dataSize⟩] := by
    rw [step, found]
    dsimp only [last]
    by_cases seen : h.name ∈ p.namesHere
    · simp only [if_pos seen, append_nil, and_self]
    · simp only [if_neg seen, and_self]
  obtain ⟨changed, here, extents⟩ := stepped
  have names : memberNames (entries.modify index (absorbTraits h)) = memberNames entries :=
    memberNames_modify (absorbTraits_name h)
  have absorbed := distinct'.congr names
  have names' : memberNames ((entries.modify index (absorbTraits h)).modify index last) = memberNames entries :=
    (memberNames_modify keeps).trans names
  rw [changed, here, extents, names']
  refine ⟨absorbed.congr (memberNames_modify keeps), fun name => ?_, before, rfl, (under.mono before).append ?_⟩
  · rw [entryOf_modify absorbed keeps (getElem?_modify_self at_index),
      entryOf_modify distinct' (absorbTraits_name h) at_index, absorbTraits_name, own]
    by_cases same : h.name = name
    · subst same
      rw [if_pos rfl, if_pos rfl, first]
      simp only [last, absorb, decide_eq_true_eq]
    · rw [if_neg same, if_neg same, if_neg same, others name (Ne.symm same)]
  · split
    · rfl
    · have at_name : (memberNames entries)[index]? = some h.name := by
        rw [memberNames, getElem?_map, at_index, Option.map_some, own]
      rw [Named, map_singleton, map_singleton, VolumeExtent.map, at_name]
      rfl

/-- The whole loop: every name is treated by its own headers, in their order. -/
theorem run_spec (headers : List MemberSnapshot) :
    DistinctNames (headers.foldl (step volume) p).entries ∧
      (∀ name, entryOf name (headers.foldl (step volume) p).entries =
        absorbAll name volume (name ∈ p.namesHere) (headersOf name headers) (entryOf name p.entries)) ∧
      memberNames p.entries <+: memberNames (headers.foldl (step volume) p).entries ∧
      Named (memberNames (headers.foldl (step volume) p).entries) (headers.foldl (step volume) p).extents
        (named ++ (keptHeaders p.namesHere headers).map MemberSnapshot.toExtent) := by
  induction headers generalizing p named with
  | nil => exact ⟨distinct, fun _ => rfl, prefix_refl _, by simpa [keptHeaders] using under⟩
  | cons h rest ih =>
    obtain ⟨distinct', entry, before, here, under'⟩ := step_spec distinct under volume h
    obtain ⟨distinct'', entries, before', under''⟩ := ih distinct' under'
    refine ⟨distinct'', fun name => ?_, before.trans before', ?_⟩
    · rw [foldl_cons, entries name, entry name, here]
      by_cases own : h.name = name
      · subst own
        have listed : headersOf h.name (h :: rest) = h :: headersOf h.name rest :=
          filter_cons_of_pos (decide_eq_true rfl)
        have now : h.name ∈ if h.name ∈ p.namesHere then p.namesHere else h.name :: p.namesHere := by
          grind
        rw [if_pos rfl, listed, absorbAll, decide_eq_true now]
      · have listed : headersOf name (h :: rest) = headersOf name rest :=
          filter_cons_of_neg (by simpa using own)
        have kept : (name ∈ if h.name ∈ p.namesHere then p.namesHere else h.name :: p.namesHere) ↔ name ∈ p.namesHere := by
          grind
        rw [if_neg own, listed, decide_eq_decide.mpr kept]
    · grind [keptHeaders, append_assoc]

end

end HeaderPass

/-- The marks of the sweep reach the entries of the names found. -/
theorem markAll_spec {entries : List MemberEntry} (distinct : DistinctNames entries) (reason : MalformedReason)
    {indices : List Nat} {marked : List String} (under : indices.map ((memberNames entries)[·]?) = marked.map some) :
    memberNames (indices.foldl (fun entries index => entries.modify index (markMalformed reason)) entries) =
        memberNames entries ∧
      ∀ name, entryOf name
          (indices.foldl (fun entries index => entries.modify index (markMalformed reason)) entries) =
        if name ∈ marked then (entryOf name entries).map (markMalformed reason) else entryOf name entries := by
  induction indices generalizing entries marked with
  | nil =>
    simp_all
  | cons index rest ih =>
    cases marked with
    | nil => cases under
    | cons first others =>
      rw [map_cons, map_cons] at under
      obtain ⟨at_first, under⟩ := cons.inj under
      rw [memberNames, getElem?_map] at at_first
      obtain ⟨e, at_index, own⟩ := Option.map_eq_some_iff.mp at_first
      have names : memberNames (entries.modify index (markMalformed reason)) = memberNames entries :=
        memberNames_modify (markMalformed_name reason)
      have known : entryOf first entries = some e := own ▸ Roster.Distinct.find_of_getElem? distinct at_index
      obtain ⟨names', entry⟩ := ih (distinct.congr names) (names.symm ▸ under)
      refine ⟨names'.trans names, fun name => ?_⟩
      rw [foldl_cons, entry name, entryOf_modify distinct (markMalformed_name reason) at_index, own]
      by_cases here : first = name
      · subst here
        rw [if_pos rfl, if_pos mem_cons_self, known]
        by_cases again : first ∈ others
        · rw [if_pos again]
          rfl
        · rw [if_neg again]
          rfl
      · grind

end Rarpar.Unrar

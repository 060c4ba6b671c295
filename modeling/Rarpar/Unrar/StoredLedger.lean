import Mathlib.Data.Vector.Defs
import Rarpar.Unrar.StoredResolve

namespace Rarpar.Unrar
open OrderedMap MemberEntry
open List hiding Vector

open StoredMemberPart (erase)

/-- The headers of the accepted volumes. -/
abbrev Ledger := OrderedMap (List MemberSnapshot)

/-- The facts about a member that any of its headers can contribute. -/
inductive Trait
  | encrypted
  | solid
  | directory
  | redirection
  | compressed

def MemberTraits.has (traits : MemberTraits) : Trait → Bool
  | .encrypted => traits.encrypted
  | .solid => traits.solid
  | .directory => traits.directory
  | .redirection => traits.redirection
  | .compressed => traits.compressed

def MemberSnapshot.shows (snapshot : MemberSnapshot) : Trait → Bool
  | .encrypted => snapshot.isEncrypted
  | .solid => snapshot.isSolid
  | .directory => snapshot.isDirectory
  | .redirection => snapshot.isRedirection
  | .compressed => !snapshot.isStore

theorem MemberTraits.ext_has {traits traits' : MemberTraits} (reason : traits.malformed = traits'.malformed)
    (same : ∀ t, traits.has t = traits'.has t) : traits = traits' := by
  cases traits
  cases traits'
  simp only [MemberTraits.mk.injEq]
  exact ⟨reason, same .encrypted, same .solid, same .directory, same .redirection, same .compressed⟩

/-- The headers of a volume that are the first of their name, in their order. -/
def keptHeaders (seen : List String) : List MemberSnapshot → List MemberSnapshot
  | [] => []
  | h :: rest => if h.name ∈ seen then keptHeaders seen rest else h :: keptHeaders (h.name :: seen) rest

def MemberSnapshot.toExtent (h : MemberSnapshot) : VolumeExtent String := ⟨h.name, h.dataOffset, h.dataSize⟩

/-- The extents of a volume with its members under their names. -/
def extentsOf (headers : List MemberSnapshot) : List (VolumeExtent String) :=
  sortExtents ((keptHeaders [] headers).map MemberSnapshot.toExtent)

def headersOf (name : String) (headers : List MemberSnapshot) : List MemberSnapshot := headers.filter (·.name = name)

/-- A violation that the headers of one volume prove on their own. -/
def Damaged (name : String) (headers : List MemberSnapshot) : Prop :=
  1 < (headersOf name headers).length ∨ name ∈ overlapMarks none (extentsOf headers)

/-- The mark that the headers of a volume put on a name. -/
def damage (name : String) (volume : Nat) (headers : List MemberSnapshot) : Option MalformedReason :=
  if 1 < (headersOf name headers).length then some (.duplicatePartInVolume volume)
  else if name ∈ overlapMarks none (extentsOf headers) then some (.overlappingParts volume)
  else none

theorem damage_isSome {name : String} {volume : Nat} {headers : List MemberSnapshot} :
    (damage name volume headers).isSome ↔ Damaged name headers := by
  unfold damage Damaged
  split <;> simp_all

theorem keptHeaders_subset {seen : List String} {headers : List MemberSnapshot} : keptHeaders seen headers ⊆ headers := by
  induction headers generalizing seen with
  | nil => exact List.Subset.refl _
  | cons h rest ih =>
    rw [keptHeaders]
    split
    · exact List.Subset.trans ih (subset_cons_self h rest)
    · exact cons_subset_cons h ih

theorem mem_of_mem_overlapMarks {ι : Type} {owner : ι} {covered : Option (Nat × ι)} {extents : List (VolumeExtent ι)}
    (found : owner ∈ overlapMarks covered extents) :
    (∃ stop, covered = some (stop, owner)) ∨ ∃ extent ∈ extents, extent.memberIndex = owner := by
  induction extents generalizing covered with
  | nil => cases found
  | cons extent rest ih =>
    have keep {covered' : Option (Nat × ι)} (found : owner ∈ overlapMarks covered' rest)
        (from_ : ∀ stop, covered' = some (stop, owner) → covered = some (stop, owner) ∨ extent.memberIndex = owner) :
        (∃ stop, covered = some (stop, owner)) ∨ ∃ other ∈ extent :: rest, other.memberIndex = owner := by
      rcases ih found with ⟨stop, own⟩ | ⟨other, later, own⟩
      · exact (from_ stop own).imp (fun same => ⟨stop, same⟩) fun same => ⟨extent, mem_cons_self, same⟩
      · exact .inr ⟨other, mem_cons_of_mem extent later, own⟩
    rw [overlapMarks] at found
    split at found
    · exact keep found fun stop same => .inl same
    · grind

theorem Damaged.headersOf_ne_nil {name : String} {headers : List MemberSnapshot} (damaged : Damaged name headers) :
    headersOf name headers ≠ [] := by
  rcases damaged with twice | marked
  · exact ne_nil_of_length_pos (by omega)
  · rcases mem_of_mem_overlapMarks marked with ⟨_, impossible⟩ | ⟨extent, member, rfl⟩
    · cases impossible
    · obtain ⟨h, kept, rfl⟩ := mem_map.mp ((mem_insertionSort _).mp member)
      refine ne_nil_of_mem (a := h) (mem_filter.mpr ⟨keptHeaders_subset kept, ?_⟩)
      exact decide_eq_true rfl

namespace Ledger
variable {ledger : Ledger} {name : String} {volume : Nat} {headers : List MemberSnapshot} {h : MemberSnapshot}

/-- The first header of a name in each volume. -/
def chain (name : String) (ledger : Ledger) : OrderedMap MemberSnapshot :=
  OrderedMap.pick (fun headers => headers.find? (·.name = name)) ledger

def chainParts (name : String) (ledger : Ledger) : List StoredMemberPart :=
  (chain name ledger).map fun r => r.2.toPart r.1

/-- An accepted volume has this header of the name. -/
def States (name : String) (ledger : Ledger) (h : MemberSnapshot) : Prop :=
  ∃ r ∈ ledger, h ∈ headersOf name r.2

theorem mem_headersOf : h ∈ headersOf name headers ↔ h ∈ headers ∧ h.name = name := by
  simp only [headersOf, mem_filter, decide_eq_true_eq]

theorem find?_eq_head? (name : String) (headers : List MemberSnapshot) :
    headers.find? (·.name = name) = (headersOf name headers).head? := by
  rw [headersOf, head?_filter]

theorem chain_sorted (sorted : ledger.Sorted) : (chain name ledger).Sorted := pick_sorted _ sorted

theorem mem_chain :
    (volume, h) ∈ chain name ledger ↔ ∃ headers, (volume, headers) ∈ ledger ∧ (headersOf name headers).head? = some h := by
  simp only [chain, mem_pick, find?_eq_head?]

theorem states_of_mem_chain {r : Nat × MemberSnapshot} (member : r ∈ chain name ledger) : States name ledger r.2 := by
  obtain ⟨headers, there, first⟩ := mem_chain.mp (show (r.1, r.2) ∈ chain name ledger from member)
  exact ⟨(r.1, headers), there, mem_of_mem_head? first⟩

theorem chain_eq_nil_iff : chain name ledger = [] ↔ ∀ h, ¬States name ledger h := by
  constructor
  · rintro empty h ⟨r, there, member⟩
    obtain ⟨first, rest, headers⟩ := exists_cons_of_ne_nil (ne_nil_of_mem member)
    have inChain : (r.1, first) ∈ chain name ledger := mem_chain.mpr ⟨r.2, there, by rw [headers]; rfl⟩
    rw [empty] at inChain
    cases inChain
  · intro never
    cases found : chain name ledger with
    | nil => rfl
    | cons r rest =>
      exact absurd (states_of_mem_chain (found ▸ mem_cons_self : r ∈ chain name ledger)) (never r.2)

theorem chain_insert (sorted : ledger.Sorted) (fresh : OrderedMap.Fresh volume ledger) :
    chain name (insert volume headers ledger) = match (headersOf name headers).head? with
      | none => chain name ledger
      | some h => insert volume h (chain name ledger) := by
  rw [chain, pick_insert _ sorted fresh, find?_eq_head?]
  cases (headersOf name headers).head? <;> rfl

theorem states_insert (sorted : ledger.Sorted) (fresh : OrderedMap.Fresh volume ledger) :
    States name (insert volume headers ledger) h ↔ h ∈ headersOf name headers ∨ States name ledger h := by
  simp only [States, mem_insert sorted fresh, or_and_right, exists_or, exists_eq_left]

end Ledger

/-- The checksums of the whole member, as a header that ends it states them. -/
def MemberSnapshot.checks (h : MemberSnapshot) : Option UInt32 × Option (Vector UInt8 32) × Bool :=
  (h.dataCrc32, h.dataBlake2Hash, h.dataHashUsesMac)

def StoredMember.checks (m : StoredMember) : Option UInt32 × Option (Vector UInt8 32) × Bool :=
  (m.dataCrc32, m.dataBlake2Hash, m.dataHashUsesMac)

/-- The entry holds what the accepted volumes say about the name, apart from what `resolve` derives. -/
structure Describes (ledger : Ledger) (name : String) (e : MemberEntry) : Prop where
  name_eq : e.member.name = name
  parts_eq : e.member.parts.map erase = ledger.chainParts name
  declarations_eq : e.declarations = (ledger.chain name).pick (·.unpackedSize)
  encryptions_eq : e.encryptions = (ledger.chain name).pick fun h => some h.encryption
  traits_iff : ∀ t, e.traits.has t = true ↔ ∃ h, ledger.States name h ∧ h.shows t = true
  malformed_iff : e.traits.malformed.isSome ↔ ∃ r ∈ ledger, Damaged name r.2
  first_le : ∀ r ∈ ledger.chain name, e.member.firstVolume ≤ r.1
  first_mem : ledger.chain name ≠ [] → ∃ r ∈ ledger.chain name, r.1 = e.member.firstVolume
  checks_eq : (∃ r ∈ ledger.chain name, r.2.splitAfter = false ∧ e.member.checks = r.2.checks) ∨
    ((∀ r ∈ ledger.chain name, r.2.splitAfter = true) ∧ e.member.checks = (none, none, false))

/-! ### One header -/

namespace MemberEntry
variable {e : MemberEntry} {h : MemberSnapshot} {volume : Nat} {reason : MalformedReason}

theorem absorbTraits_has (t : Trait) : (e.absorbTraits h).traits.has t = (e.traits.has t || h.shows t) := by
  cases t <;> rfl

theorem markMalformed_eq : (e.markMalformed reason).traits.malformed = e.traits.malformed.or (some reason) := by
  cases known : e.traits.malformed <;> simp [markMalformed, known]

theorem markMalformed_has (t : Trait) : (e.markMalformed reason).traits.has t = e.traits.has t := by
  cases t <;> rfl

theorem addPart_traits : (e.addPart volume h).traits = e.traits := rfl

theorem addPart_name : (e.addPart volume h).member.name = e.member.name := by
  unfold addPart
  cases h.splitAfter <;> rfl

theorem addPart_firstVolume : (e.addPart volume h).member.firstVolume = min e.member.firstVolume volume := by
  unfold addPart
  cases h.splitAfter <;> rfl

theorem addPart_parts : (e.addPart volume h).member.parts = insertPart (h.toPart volume) e.member.parts := by
  unfold addPart
  cases h.splitAfter <;> rfl

theorem addPart_declarations : (e.addPart volume h).declarations = match h.unpackedSize with
    | none => e.declarations
    | some unpackedSize => e.declarations.insert volume unpackedSize := by
  unfold addPart
  cases h.unpackedSize <;> rfl

theorem addPart_checks :
    (e.addPart volume h).member.checks = if h.splitAfter then e.member.checks else h.checks := by
  unfold addPart
  cases h.splitAfter <;> rfl

end MemberEntry

theorem insertPart_map_erase (p : StoredMemberPart) (parts : List StoredMemberPart) :
    (insertPart p parts).map erase = insertPart p.erase (parts.map erase) := by
  simp only [insertPart, map_append, map_cons, takeWhile_map, dropWhile_map]
  rfl

theorem insertPart_chain {chain : OrderedMap MemberSnapshot} {volume : Nat} (fresh : OrderedMap.Fresh volume chain)
    (h : MemberSnapshot) :
    insertPart (h.toPart volume) (chain.map fun r => r.2.toPart r.1) =
      (insert volume h chain).map fun r => r.2.toPart r.1 := by
  induction chain with
  | nil => rfl
  | cons r rest ih =>
    have other := fresh r mem_cons_self
    have ih := ih fun s member => fresh s (mem_cons_of_mem r member)
    rw [OrderedMap.insert]
    by_cases below : volume < r.1
    · have later : ¬(r.2.toPart r.1).volume < (h.toPart volume).volume := by
        show ¬r.1 < volume
        omega
      rw [if_pos below, insertPart, map_cons, takeWhile_cons_of_neg (by simpa using later),
        dropWhile_cons_of_neg (by simpa using later)]
      rfl
    · have earlier : (r.2.toPart r.1).volume < (h.toPart volume).volume := by
        show r.1 < volume
        omega
      rw [if_neg below, if_neg (Ne.symm other), map_cons (l := insert volume h rest), ← ih, insertPart,
        map_cons, takeWhile_cons_of_pos (by simpa using earlier),
        dropWhile_cons_of_pos (by simpa using earlier)]
      rfl

/-! ### All headers of a name in one volume -/

namespace MemberEntry
variable {e : MemberEntry} {name : String} {volume : Nat}

/-- What one header does to its member; `seen` when the volume had the name before. -/
def absorb (volume : Nat) (seen : Bool) (h : MemberSnapshot) (e : MemberEntry) : MemberEntry :=
  if seen then (e.absorbTraits h).markMalformed (.duplicatePartInVolume volume) else (e.absorbTraits h).addPart volume h

/-- What the headers of a name in a volume do to the entry of the name, if there is one. -/
def absorbAll (name : String) (volume : Nat) : Bool → List MemberSnapshot → Option MemberEntry → Option MemberEntry
  | _, [], entry => entry
  | seen, h :: rest, entry =>
    absorbAll name volume true rest (some ((entry.getD (new name volume)).absorb volume seen h))

/-- Headers after the first contribute traits and the mark only. -/
theorem absorbAll_seen (name : String) (volume : Nat) (headers : List MemberSnapshot) (e : MemberEntry) :
    ∃ e', absorbAll name volume true headers (some e) = some e' ∧ e'.member = e.member ∧
      e'.declarations = e.declarations ∧ e'.encryptions = e.encryptions ∧
      (∀ t, e'.traits.has t = true ↔ e.traits.has t = true ∨ ∃ h ∈ headers, h.shows t = true) ∧
      e'.traits.malformed = e.traits.malformed.or (if headers = [] then none else some (.duplicatePartInVolume volume)) := by
  induction headers generalizing e with
  | nil => exact ⟨e, rfl, rfl, rfl, rfl, fun t => by simp, Option.or_none.symm⟩
  | cons h rest ih =>
    obtain ⟨e', absorbed, member, declarations, encryptions, traits, malformed⟩ := ih (e.absorb volume true h)
    refine ⟨e', absorbed, member, declarations, encryptions, fun t => ?_, ?_⟩
    · have here : (e.absorb volume true h).traits.has t = (e.traits.has t || h.shows t) := by
        rw [absorb, if_pos rfl, markMalformed_has, absorbTraits_has]
      rw [traits t, here, Bool.or_eq_true, or_assoc, exists_mem_cons_iff]
    · rw [malformed, absorb, if_pos rfl, markMalformed_eq, Option.or_assoc, if_neg (cons_ne_nil h rest)]
      rfl

end MemberEntry

namespace Describes
variable {ledger : Ledger} {name : String} {volume : Nat} {headers rest : List MemberSnapshot} {h : MemberSnapshot}
  {e e' : MemberEntry}
open OrderedMap (Fresh)

/-- The entry of a name no header has stated. -/
theorem new (never : ∀ h, ¬ledger.States name h) : Describes ledger name (new name volume) := by
  have empty : ledger.chain name = [] := Ledger.chain_eq_nil_iff.mpr never
  have none_ : ∀ r, r ∉ ledger.chain name := fun r => by
    rw [empty]
    exact not_mem_nil
  refine ⟨rfl, ?_, ?_, ?_, fun t => ?_, ?_, fun r member => absurd member (none_ r),
    fun some_ => absurd empty some_, .inr ⟨fun r member => absurd member (none_ r), rfl⟩⟩
  · rw [Ledger.chainParts, empty]
    rfl
  · rw [empty]
    rfl
  · rw [empty]
    rfl
  · refine iff_of_false (by cases t <;> exact Bool.false_ne_true) ?_
    rintro ⟨h, stated, _⟩
    exact never h stated
  · refine iff_of_false Bool.false_ne_true ?_
    rintro ⟨r, there, damaged⟩
    obtain ⟨h, member⟩ := exists_mem_of_ne_nil _ damaged.headersOf_ne_nil
    exact never h ⟨r, there, member⟩

section
variable (described : Describes ledger name e) (sorted : ledger.Sorted) (fresh : Fresh volume ledger)
include described sorted fresh

/-- A volume without a header of the name says nothing about it. -/
theorem learn_other (none_ : headersOf name headers = []) : Describes (insert volume headers ledger) name e := by
  have chain : Ledger.chain name (insert volume headers ledger) = ledger.chain name := by
    rw [Ledger.chain_insert sorted fresh, none_]
    rfl
  have states (h : MemberSnapshot) :
      Ledger.States name (insert volume headers ledger) h ↔ ledger.States name h := by
    rw [Ledger.states_insert sorted fresh, none_]
    simp
  refine ⟨described.name_eq, ?_, ?_, ?_, fun t => ?_, ?_, ?_, ?_, ?_⟩
  · rw [Ledger.chainParts, chain]
    exact described.parts_eq
  · rw [chain]
    exact described.declarations_eq
  · rw [chain]
    exact described.encryptions_eq
  · simp only [states]
    exact described.traits_iff t
  · rw [described.malformed_iff]
    simp only [mem_insert sorted fresh, or_and_right, exists_or, exists_eq_left]
    exact (or_iff_right fun damaged => damaged.headersOf_ne_nil none_).symm
  · rw [chain]
    exact described.first_le
  · rw [chain]
    exact described.first_mem
  · rw [chain]
    exact described.checks_eq

/-- The headers of the name in a volume bring its entry up to date, once the overlaps are marked. -/
theorem learn_own
    (start : ledger.chain name = [] → e.member.firstVolume = volume) (own : headersOf name headers = h :: rest)
    (member : e'.member = ((e.absorbTraits h).addPart volume h).member)
    (declarations : e'.declarations = ((e.absorbTraits h).addPart volume h).declarations)
    (encryptions : e'.encryptions = ((e.absorbTraits h).addPart volume h).encryptions)
    (traits : ∀ t, e'.traits.has t = true ↔ e.traits.has t = true ∨ ∃ h ∈ headersOf name headers, h.shows t = true)
    (malformed : e'.traits.malformed = e.traits.malformed.or (damage name volume headers)) :
    Describes (insert volume headers ledger) name e' := by
  have fresh' : Fresh volume (ledger.chain name) := pick_fresh _ fresh
  have sorted' : OrderedMap.Sorted (ledger.chain name) := Ledger.chain_sorted sorted
  have chain : Ledger.chain name (insert volume headers ledger) =
      insert volume h (ledger.chain name) := by
    rw [Ledger.chain_insert sorted fresh, own]
    rfl
  have members {r : Nat × MemberSnapshot} :
      r ∈ insert volume h _ ↔ r = (volume, h) ∨ r ∈ ledger.chain name :=
    mem_insert sorted' fresh'
  have firstVolume : e'.member.firstVolume = min e.member.firstVolume volume := by
    rw [member, addPart_firstVolume]
    rfl
  refine ⟨?_, ?_, ?_, ?_, fun t => ?_, ?_, fun r there => ?_, fun _ => ?_, ?_⟩
  · rw [member, addPart_name]
    exact described.name_eq
  · rw [member, addPart_parts, insertPart_map_erase, Ledger.chainParts, chain, ← insertPart_chain fresh',
      ← Ledger.chainParts, ← described.parts_eq]
    rfl
  · rw [declarations, addPart_declarations, chain, pick_insert _ sorted' fresh',
      ← described.declarations_eq]
    cases h.unpackedSize <;> rfl
  · rw [encryptions, chain, pick_insert _ sorted' fresh', ← described.encryptions_eq]
    rfl
  · rw [traits t, described.traits_iff t]
    simp only [Ledger.states_insert sorted fresh, or_and_right, exists_or]
    exact or_comm
  · rw [malformed, Option.isSome_or, Bool.or_eq_true, damage_isSome, described.malformed_iff]
    simp only [mem_insert sorted fresh, or_and_right, exists_or, exists_eq_left]
    exact or_comm
  · rw [chain] at there
    rw [firstVolume]
    rcases members.mp there with rfl | old
    · exact min_le_right _ _
    · exact (min_le_left _ _).trans (described.first_le r old)
  · rw [chain, firstVolume]
    by_cases empty : ledger.chain name = []
    · exact ⟨(volume, h), members.mpr (.inl rfl), by rw [start empty, min_self]⟩
    · obtain ⟨r, old, first⟩ := described.first_mem empty
      rcases le_total e.member.firstVolume volume with less | more
      · exact ⟨r, members.mpr (.inr old), by rw [min_eq_left less]; exact first⟩
      · exact ⟨(volume, h), members.mpr (.inl rfl), (min_eq_right more).symm⟩
  · have checks : e'.member.checks = if h.splitAfter then e.member.checks else h.checks := by
      rw [member, addPart_checks]
      rfl
    rw [chain, checks]
    cases final : h.splitAfter with
    | false => exact .inl ⟨(volume, h), members.mpr (.inl rfl), final, rfl⟩
    | true =>
      rcases described.checks_eq with ⟨r, old, ends, same⟩ | ⟨none_, same⟩
      · exact .inl ⟨r, members.mpr (.inr old), ends, same⟩
      · grind

end

end Describes
end Rarpar.Unrar

import Rarpar.Data.Fallible
import Rarpar.Par2.SetBuilder

namespace Rarpar.Par2
open Table Function Option List UnicodeNames Par2FileSetBuilder

/-! ### What packets say -/

def descriptionsOf (packets : List Packet) : List (FileId × FileDescription) :=
  packets.filterMap fun | .fileDescription fd => some (fd.fileId, fd.description) | _ => none

def checksumsOf (packets : List Packet) : List (FileId × List SliceChecksum) :=
  packets.filterMap fun | .inputFileSliceChecksum ifsc => some (ifsc.fileId, ifsc.checksums) | _ => none

def slicesOf (packets : List Packet) : List (Nat × RecoverySlice) :=
  packets.filterMap fun | .recoverySlice rs => some (rs.exponent, rs.slice) | _ => none

def spellingsOf (packets : List Packet) : List UnicodeFilenamePacket :=
  packets.filterMap fun | .unicodeFilename name => some name | _ => none

/-- The spellings after one more packet. -/
def spell (names : Table FileId (Option String)) (packet : UnicodeFilenamePacket) : Table FileId (Option String) :=
  ((UnicodeNames.mk names .empty).add packet).2.names

theorem UnicodeNames.add_snd (names : Table FileId (Option String)) (originals : Table FileId (String × String))
    (packet : UnicodeFilenamePacket) : ((mk names originals).add packet).2 = ⟨spell names packet, originals⟩ := by
  dsimp only [spell, add]
  split
  · split <;> rfl
  · rfl
  · split <;> rfl

/-- The packets kept, before any name is applied and any packet is checked. -/
structure Inventory where
  main : Option MainPacket
  files : Table FileId FileDescription
  checksums : Table FileId (List SliceChecksum)
  slices : Table Nat RecoverySlice
  names : Table FileId (Option String)

/-- Keep a packet, under a limit on files and a test of exponents. -/
def Inventory.keep (limit : Option Nat) (usable : Nat → Bool) (held : Inventory) : Packet → Inventory
  | .fileDescription fd => { held with files := held.files.offer limit (fd.fileId, fd.description) }
  | .inputFileSliceChecksum ifsc => { held with checksums := held.checksums.offer limit (ifsc.fileId, ifsc.checksums) }
  | .recoverySlice rs =>
    { held with slices := if usable rs.exponent then held.slices.offer none (rs.exponent, rs.slice) else held.slices }
  | .unicodeFilename name => { held with names := spell held.names name }
  | .main main => { held with main := held.main.or (some main) }
  | _ => held

namespace Inventory
variable (limit : Option Nat) (usable : Nat → Bool) (packets : List Packet) (held : Inventory)

theorem main_foldl_keep {main : MainPacket} (known : held.main = some main) :
    (packets.foldl (keep limit usable) held).main = some main := by
  induction packets generalizing held with
  | nil => exact known
  | cons packet rest ih =>
    refine ih _ ?_
    cases packet with
    | main other =>
      dsimp only [keep]
      rw [known, some_or]
    | _ => exact known

theorem files_foldl_keep :
    (packets.foldl (keep limit usable) held).files = (descriptionsOf packets).foldl (offer limit) held.files := by
  rw [descriptionsOf, foldl_filterMap]
  exact (foldl_hom files fun held packet => by cases packet <;> rfl).symm

theorem checksums_foldl_keep :
    (packets.foldl (keep limit usable) held).checksums = (checksumsOf packets).foldl (offer limit) held.checksums := by
  rw [checksumsOf, foldl_filterMap]
  exact (foldl_hom _ fun held packet => by cases packet <;> rfl).symm

theorem slices_foldl_keep : (packets.foldl (keep limit usable) held).slices =
    ((slicesOf packets).filter fun entry => usable entry.1).foldl (offer none) held.slices := by
  rw [slicesOf, foldl_filter, foldl_filterMap]
  exact (foldl_hom slices fun held packet => by cases packet <;> rfl).symm

theorem names_foldl_keep :
    (packets.foldl (keep limit usable) held).names = (spellingsOf packets).foldl spell held.names := by
  rw [spellingsOf, foldl_filterMap]
  exact (foldl_hom names fun held packet => by cases packet <;> rfl).symm

end Inventory

/-! ### Names -/

section Names
variable (translate : Translation)

/-- The description under the spelling its packets agree on. -/
def named (name : Option (Option String)) (description : FileDescription) : FileDescription :=
  match name with
  | some (some name) =>
    if description.par2Name = name then description
    else match translate name with
      | some filename => { description with par2Name := name, filename := filename }
      | none => description
  | _ => description

/-- How a description stands in a set: as its packet has it, or renamed with the packet's names set aside. -/
def Spelled (name : Option (Option String)) (description current : FileDescription) (original : Option (String × String)) : Prop :=
  (current = description ∧ original = none) ∨
  ∃ spelling filename, translate spelling = some filename ∧ description.par2Name ≠ spelling ∧
    current = { description with par2Name := spelling, filename := filename } ∧
    original = some (description.par2Name, description.filename) ∧ (name = some (some spelling) ∨ name = some none)

variable {translate}

theorem named_length (name : Option (Option String)) (description : FileDescription) :
    (named translate name description).length = description.length := by
  unfold named
  split
  · split
    · rfl
    · split <;> rfl
  · rfl

variable {description current : FileDescription} {original : Option (String × String)}

/-- Applying the names gives the agreed name, whatever name stood there. -/
theorem Spelled.applyName {name : Option String}
    (spelled : Spelled translate (some name) description current original) :
    (applyName translate name current original).1 = named translate (some name) description ∧
    Spelled translate (some name) description (named translate (some name) description)
      (applyName translate name current original).2 := by
  rcases spelled with ⟨rfl, rfl⟩ | ⟨spelling, filename, translated, different, rfl, rfl, agreed⟩
  · cases name with
    | none => exact ⟨rfl, .inl ⟨rfl, rfl⟩⟩
    | some name =>
      dsimp only [applyName, named, FileDescription.adoptUnicodeName]
      by_cases same : current.par2Name = name
      · rw [if_neg (not_not.mpr same), if_pos same]
        exact ⟨rfl, .inl ⟨rfl, rfl⟩⟩
      · rw [if_pos same, if_neg same]
        cases translated : translate name with
        | none => exact ⟨rfl, .inl ⟨rfl, rfl⟩⟩
        | some filename => exact ⟨rfl, .inr ⟨name, filename, translated, same, rfl, rfl, .inl rfl⟩⟩
  · rcases agreed with agreed | disagreed
    · obtain rfl := some.inj agreed
      dsimp only [applyName, named]
      rw [if_neg (not_not.mpr rfl), if_neg different, translated]
      exact ⟨rfl, .inr ⟨spelling, filename, translated, different, rfl, rfl, .inl rfl⟩⟩
    · obtain rfl := some.inj disagreed
      exact ⟨rfl, .inl ⟨rfl, rfl⟩⟩

/-- A name never heard of leaves the description as it is. -/
theorem Spelled.of_none
    (spelled : Spelled translate none description current original) : current = description ∧ original = none := by
  rcases spelled with plain | ⟨_, _, _, _, _, _, agreed | disagreed⟩
  · exact plain
  · cases agreed
  · cases disagreed

/-- Further packets for a file agree, or disagree for good. -/
theorem Spelled.spell {names : Table FileId (Option String)} {file : FileId}
    (packet : UnicodeFilenamePacket)
    (spelled : Spelled translate (names.lookup file) description current original) :
    Spelled translate ((spell names packet).lookup file) description current original := by
  rcases spelled with plain | ⟨spelling, filename, translated, different, renamed, aside, known⟩
  · exact .inl plain
  refine .inr ⟨spelling, filename, translated, different, renamed, aside, ?_⟩
  dsimp only [Par2.spell, add]
  by_cases same : packet.fileId = file
  · subst same
    rcases known with agreed | disagreed
    · rw [agreed]
      dsimp only
      split
      · exact .inl agreed
      · exact .inr (update_self _ _ _)
    · grind
  · have other (value : Option String) : (names.insert packet.fileId value).lookup file = names.lookup file :=
      update_of_ne (Ne.symm same) _ _
    split
    · grind
    · exact known
    · grind

/-- A set's descriptions and names against the packets kept. -/
structure Follows (translate : Translation) (said : Table FileId FileDescription) (names : Table FileId (Option String))
    (files : Table FileId FileDescription) (u : UnicodeNames) : Prop where
  sameNames : u.names = names
  absent : ∀ file, said.lookup file = none → files.lookup file = none ∧ u.originals.lookup file = none
  present : ∀ file description, said.lookup file = some description → ∃ current, files.lookup file = some current ∧
    Spelled translate (names.lookup file) description current (u.originals.lookup file)

namespace Follows
variable {said files : Table FileId FileDescription} {names : Table FileId (Option String)} {u : UnicodeNames}
  (follows : Follows translate said names files u)
include follows

theorem keys : files.keys = said.keys := by
  ext file
  rw [files.mem_keys, said.mem_keys]
  cases known : said.lookup file with
  | none => rw [(follows.absent file known).1]
  | some description =>
    obtain ⟨current, here, _⟩ := follows.present file _ known
    rw [here]
    rfl

/-- Applying the names gives every described file its name. -/
theorem apply : (∀ file, (u.apply translate files).2.lookup file =
      (said.lookup file).map (named translate (names.lookup file))) ∧
    Follows translate said names (u.apply translate files).2 (u.apply translate files).1 := by
  have lookups (file : FileId) : (u.apply translate files).2.lookup file = (files.lookup file).map fun description =>
      ((u.names.lookup file).elim (description, u.originals.lookup file) fun name =>
        applyName translate name description (u.originals.lookup file)).1 := by
    refine (lookup_within _ _ (fun file outside => ?_) file).trans ?_
    · dsimp only
      rw [notMem_keys.mp outside]
      rfl
    · dsimp only
      cases files.lookup file <;> cases u.names.lookup file <;> rfl
  have originals (file : FileId) : (u.apply translate files).1.originals.lookup file =
      ((files.lookup file).map fun description => (u.names.lookup file).elim (description, u.originals.lookup file) fun name =>
        applyName translate name description (u.originals.lookup file)).elim (u.originals.lookup file) Prod.snd := by
    refine (lookup_within _ _ (fun file outside => ?_) file).trans ?_
    · obtain ⟨noFile, noOriginal⟩ := not_or.mp (mt Finset.mem_union.mpr outside)
      dsimp only
      rw [notMem_keys.mp noFile]
      exact notMem_keys.mp noOriginal
    · dsimp only
      cases files.lookup file <;> cases u.names.lookup file <;> rfl
  have each (file : FileId) (description : FileDescription) (known : said.lookup file = some description) :
      (u.apply translate files).2.lookup file = some (named translate (names.lookup file) description) ∧
      Spelled translate (names.lookup file) description (named translate (names.lookup file) description)
        ((u.apply translate files).1.originals.lookup file) := by
    obtain ⟨current, here, spelled⟩ := follows.present file _ known
    rw [lookups, originals, here, follows.sameNames]
    cases spelling : names.lookup file with
    | none =>
      rw [spelling] at spelled
      obtain ⟨rfl, original⟩ := spelled.of_none
      exact ⟨rfl, .inl ⟨rfl, original⟩⟩
    | some name =>
      rw [spelling] at spelled
      obtain ⟨same, after⟩ := spelled.applyName
      exact ⟨congrArg some same, after⟩
  refine ⟨fun file => ?_, follows.sameNames, fun file unknown => ?_, fun file description known => ?_⟩
  · cases known : said.lookup file with
    | none =>
      rw [lookups, (follows.absent file known).1]
      rfl
    | some description => exact (each file _ known).1
  · rw [lookups, originals, (follows.absent file unknown).1]
    exact ⟨rfl, (follows.absent file unknown).2⟩
  · exact ⟨_, (each file _ known).1, (each file _ known).2⟩

/-- A description is taken in when none is held under its file. -/
theorem offer (limit : Option Nat) (entry : FileId × FileDescription) :
    Follows translate (said.offer limit entry) names (files.offer limit entry) u := by
  unfold Table.offer
  rw [follows.keys]
  split_ifs with fresh
  · exact follows
  · exact follows
  have unknown := notMem_keys.mp fresh
  refine ⟨follows.sameNames, fun file none => ?_, fun file description known => ?_⟩
  · by_cases same : file = entry.1
    · rw [same] at none
      exact absurd (none.symm.trans (update_self _ _ _)) nofun
    · rw [show (said.insert entry.1 entry.2).lookup file = _ from update_of_ne same _ _] at none
      rw [show (files.insert entry.1 entry.2).lookup file = _ from update_of_ne same _ _]
      exact follows.absent file none
  · by_cases same : file = entry.1
    · subst same
      have value := some.inj (known.symm.trans (update_self _ _ _))
      exact ⟨entry.2, update_self _ _ _, .inl ⟨value.symm, (follows.absent _ unknown).2⟩⟩
    · rw [show (said.insert entry.1 entry.2).lookup file = _ from update_of_ne same _ _] at known
      obtain ⟨current, here, spelled⟩ := follows.present file _ known
      exact ⟨current, (update_of_ne same _ _).trans here, spelled⟩

/-- One more spelling is heard. -/
theorem add (packet : UnicodeFilenamePacket) :
    Follows translate said (spell names packet) files (u.add packet).2 := by
  obtain ⟨spellings, originals⟩ := u
  obtain rfl : spellings = names := follows.sameNames
  rw [add_snd]
  refine ⟨rfl, follows.absent, fun file description known => ?_⟩
  obtain ⟨current, here, spelled⟩ := follows.present file _ known
  exact ⟨current, here, spelled.spell packet⟩

end Follows
end Names

/-! ### Runs -/

/-- The packets one scan keeps, before the checks of `build`. -/
def scanned (packets : List Packet) : Inventory :=
  packets.foldl (.keep (some maxFilesPerSet) (· ≤ maxRecoveryExponent)) ⟨none, .empty, .empty, .empty, .empty⟩

/-- What merges make of an inventory. -/
def mergedIn (packets : List Packet) (held : Inventory) : Inventory := packets.foldl (.keep none fun _ => true) held

section Runs
variable {translate : Translation} {retainedBytes : Packet → Nat} {held : Inventory} {packets : List Packet}
  {admission : PacketAdmission}

/-- A builder holds the inventory. -/
structure Builds (held : Inventory) (b : Par2FileSetBuilder) : Prop where
  main : b.mainPacket = held.main
  files : b.files = held.files
  checksums : b.sliceChecksums = held.checksums
  slices : b.recoverySlices = held.slices
  names : b.unicodeNames = ⟨held.names, .empty⟩

/-- The admission of a builder into one of its limited maps. -/
theorem admitted_of_ok {κ ν σ : Type} [DecidableEq κ] (t : Table κ ν) (entry : κ × ν) (limit : Nat) (put : Table κ ν → σ) {s' : σ}
    (added : (if entry.1 ∈ t.keys then Except.ok (.duplicate, put t)
      else if t.keys.card ≥ limit then .ok (.rejected, put t)
      else .ok (.retained, put (t.insert entry.1 entry.2)) : Except Par2Error (PacketAdmission × σ)) = .ok (admission, s')) :
    s' = put (t.offer (some limit) entry) := by
  unfold offer
  split at added
  · grind
  · grind

theorem Builds.addPacket {b b' : Par2FileSetBuilder} {packet : Packet}
    (builds : Builds held b) (added : b.addPacket packet = .ok (admission, b')) :
    Builds (held.keep (some maxFilesPerSet) (· ≤ maxRecoveryExponent) packet) b' := by
  obtain ⟨main, files, checksums, slices, names⟩ := builds
  cases packet with
  | main packet =>
    dsimp only [Par2FileSetBuilder.addPacket] at added
    split at added
    · rename_i existing known
      split_ifs at added
      · obtain ⟨-, rfl⟩ := Prod.mk.inj (Except.ok.inj added)
        refine ⟨?_, files, checksums, slices, names⟩
        dsimp only [Inventory.keep]
        rw [← main, known, some_or]
    · rename_i unknown
      obtain ⟨-, rfl⟩ := Prod.mk.inj (Except.ok.inj added)
      refine ⟨?_, files, checksums, slices, names⟩
      dsimp only [Inventory.keep]
      rw [← main, unknown, none_or]
  | fileDescription fd =>
    have kept := admitted_of_ok b.files (fd.fileId, fd.description) maxFilesPerSet
      (fun files => ({ b with files := files } : Par2FileSetBuilder)) added
    subst kept
    exact ⟨main, congrArg (offer _ · _) files, checksums, slices, names⟩
  | inputFileSliceChecksum ifsc =>
    have kept := admitted_of_ok b.sliceChecksums (ifsc.fileId, ifsc.checksums) maxFilesPerSet
      (fun checksums => ({ b with sliceChecksums := checksums } : Par2FileSetBuilder)) added
    subst kept
    exact ⟨main, files, congrArg (offer _ · _) checksums, slices, names⟩
  | recoverySlice rs =>
    dsimp only [Par2FileSetBuilder.addPacket] at added
    split at added
    · rename_i large
      obtain ⟨-, rfl⟩ := Prod.mk.inj (Except.ok.inj added)
      refine ⟨main, files, checksums, ?_, names⟩
      dsimp only [Inventory.keep]
      rw [if_neg (by simpa using large)]
      exact slices
    · rename_i small
      have kept : b' = { b with recoverySlices := b.recoverySlices.offer none (rs.exponent, rs.slice) } := by
        unfold offer
        split at added
        · rename_i known
          rw [if_pos known]
          exact (Prod.mk.inj (Except.ok.inj added)).2.symm
        · grind
      subst kept
      refine ⟨main, files, checksums, ?_, names⟩
      dsimp only [Inventory.keep]
      rw [if_pos (by simpa using small), slices]
  | creator c =>
    dsimp only [Par2FileSetBuilder.addPacket] at added
    split at added
    all_goals
      obtain ⟨-, rfl⟩ := Prod.mk.inj (Except.ok.inj added)
      exact ⟨main, files, checksums, slices, names⟩
  | unicodeFilename name =>
    obtain ⟨-, rfl⟩ := Prod.mk.inj (Except.ok.inj added)
    refine ⟨main, files, checksums, slices, ?_⟩
    rw [names]
    exact add_snd _ _ _
  | unknown packetType body =>
    obtain ⟨-, rfl⟩ := Prod.mk.inj (Except.ok.inj added)
    exact ⟨main, files, checksums, slices, names⟩

/-- A builder that took these packets holds what one scan keeps. -/
theorem builds_of_ok {state : Par2FileSetBuilder × PacketScanBudget}
    (ran : packets.foldlM (addPacketBudgeted retainedBytes) (.new, .new .default) = .ok state) :
    Builds (scanned packets) state.1 := by
  have initial : Builds ⟨none, .empty, .empty, .empty, .empty⟩ .new := ⟨rfl, rfl, rfl, rfl, rfl⟩
  refine foldlM_invariant (fun held state => Builds held state.1) (fun held s packet s' builds stepped => ?_) initial ran
  obtain ⟨b, budget⟩ := s
  obtain ⟨admission, added⟩ : ∃ admission, b.addPacket packet = .ok (admission, s'.1) := by
    dsimp only [addPacketBudgeted, bind, Except.bind] at stepped
    split at stepped
    · split at stepped
      · cases stepped
      split at stepped
      · cases stepped
      rename_i result added
      obtain ⟨admission, after⟩ := result
      split at stepped
      · exact ⟨admission, (Except.ok.inj stepped) ▸ added⟩
      · exact ⟨admission, (Except.ok.inj stepped) ▸ added⟩
    · split at stepped
      · cases stepped
      rename_i result added
      obtain ⟨admission, after⟩ := result
      exact ⟨admission, (Except.ok.inj stepped) ▸ added⟩
  exact builds.addPacket added

/-- A set tells what an inventory holds, under the names in force. -/
structure Shows (translate : Translation) (held : Inventory) (set : Par2FileSet) : Prop where
  files : ∀ file, set.files.lookup file = (held.files.lookup file).map (named translate (held.names.lookup file))
  follows : Follows translate held.files held.names set.files set.unicodeNames
  checksums : set.sliceChecksums = held.checksums
  slices : set.recoverySlices = held.slices

/-- The checksums that fit the file they are for. -/
def fits (files : Table FileId FileDescription) (sliceSize : Nat) (file : FileId) (checksums : List SliceChecksum) : Bool :=
  match files.lookup file with
  | none => false
  | some desc => checksums.length = Par2FileSetBuilder.expectedChecksums sliceSize desc.length

/-- The inventory after the checks of `build`. -/
def Inventory.checked (held : Inventory) (sliceSize : Nat) : Inventory :=
  { held with
    checksums := held.checksums.retain (fits held.files sliceSize)
    slices := held.slices.retain fun _ slice => slice.data.len = sliceSize }

theorem shows_of_fromPackets {set : Par2FileSet}
    (built : Par2FileSet.fromPackets retainedBytes translate packets = .ok set) :
    Shows translate ((scanned packets).checked set.sliceSize) set ∧
      ∃ main, (scanned packets).main = some main ∧ set.sliceSize = main.sliceSize := by
  dsimp only [Par2FileSet.fromPackets, bind, Except.bind] at built
  split at built
  · cases built
  rename_i state ran
  have builds := builds_of_ok ran
  obtain ⟨b, budget⟩ := state
  dsimp only [build] at built builds
  split at built
  · cases built
  rename_i main known
  obtain rfl := Except.ok.inj built
  have initial : Follows translate (scanned packets).files (scanned packets).names b.files b.unicodeNames := by
    rw [builds.files, builds.names]
    exact ⟨rfl, fun _ unknown => ⟨unknown, rfl⟩, fun _ description here => ⟨description, here, .inl ⟨rfl, rfl⟩⟩⟩
  obtain ⟨files, follows⟩ := initial.apply
  refine ⟨⟨files, follows, ?_, ?_⟩, main, builds.main ▸ known, rfl⟩
  · ext1 file
    dsimp only [Inventory.checked]
    rw [lookup_retain, lookup_retain, builds.checksums]
    refine congrArg (Option.filter · _) (funext fun checksums => ?_)
    unfold fits
    rw [files]
    cases (scanned packets).files.lookup file with
    | none => rfl
    | some description => exact congrArg (fun length => decide (_ = expectedChecksums _ length)) (named_length _ _)
  · dsimp only [Inventory.checked]
    rw [builds.slices]

/-- A set in the middle of a merge, when new names are not applied yet. -/
structure Merges (translate : Translation) (held : Inventory) (set : Par2FileSet) : Prop where
  follows : Follows translate held.files held.names set.files set.unicodeNames
  checksums : set.sliceChecksums = held.checksums
  slices : set.recoverySlices = held.slices

/-- What a merge makes of one of the maps. -/
theorem merged_of_ok {κ ν σ ρ : Type} [DecidableEq κ] (t : Table κ ν) (entry : κ × ν) (put : Table κ ν → σ) {r r' : ρ} {state : σ × ρ}
    (merged : (if entry.1 ∉ t.keys then Except.ok (put (t.insert entry.1 entry.2), r) else .ok (put t, r') :
      Except Par2Error (σ × ρ)) = .ok state) : state.1 = put (t.offer none entry) := by
  unfold offer
  by_cases known : entry.1 ∈ t.keys
  · rw [if_neg (not_not.mpr known)] at merged
    rw [if_pos known, ← Except.ok.inj merged]
  · rw [if_pos known] at merged
    rw [if_neg known, if_neg (by simp), ← Except.ok.inj merged]

/-- One packet of a merge. -/
theorem Merges.mergePacket {state state' : Par2FileSet × Par2FileSet.MergeResult} {packet : Packet}
    (merges : Merges translate held state.1) (merged : Par2FileSet.mergePacket state packet = .ok state') :
    Merges translate (held.keep none (fun _ => true) packet) state'.1 := by
  obtain ⟨set, result⟩ := state
  obtain ⟨follows, checksums, slices⟩ := merges
  dsimp only [Par2FileSet.mergePacket] at merged follows checksums slices ⊢
  cases packet with
  | main main =>
    dsimp only at merged
    split_ifs at merged
    · obtain rfl := Except.ok.inj merged
      exact ⟨follows, checksums, slices⟩
  | fileDescription fd =>
    rw [merged_of_ok set.files (fd.fileId, fd.description) (fun files => { set with files := files }) merged]
    exact ⟨follows.offer none _, checksums, slices⟩
  | inputFileSliceChecksum ifsc =>
    rw [merged_of_ok set.sliceChecksums (ifsc.fileId, ifsc.checksums) (fun checksums => { set with sliceChecksums := checksums }) merged]
    exact ⟨follows, congrArg (offer none · _) checksums, slices⟩
  | recoverySlice rs =>
    rw [merged_of_ok set.recoverySlices (rs.exponent, rs.slice) (fun slices => { set with recoverySlices := slices }) merged]
    exact ⟨follows, checksums, congrArg (offer none · _) slices⟩
  | creator c =>
    dsimp only at merged
    split at merged
    all_goals
      obtain rfl := Except.ok.inj merged
      exact ⟨follows, checksums, slices⟩
  | unicodeFilename name =>
    obtain rfl := Except.ok.inj merged
    exact ⟨follows.add name, checksums, slices⟩
  | unknown packetType body =>
    obtain rfl := Except.ok.inj merged
    exact ⟨follows, checksums, slices⟩

/-- One merge applies the names when all its packets are in. -/
theorem Shows.mergePackets {set : Par2FileSet} {state : Par2FileSet × Par2FileSet.MergeResult}
    (shown : Shows translate held set) (merged : set.mergePackets translate packets = .ok state) :
    Shows translate (mergedIn packets held) state.1 := by
  dsimp only [Par2FileSet.mergePackets, bind, Except.bind] at merged
  split at merged
  · cases merged
  split at merged
  · cases merged
  rename_i state' ran
  obtain rfl := Except.ok.inj merged
  have initial : Merges translate held set := ⟨shown.follows, shown.checksums, shown.slices⟩
  have merges : Merges translate (mergedIn packets held) state'.1 := by
    refine foldlM_invariant (fun held (state : Par2FileSet × Par2FileSet.MergeResult) => Merges _ held state.1)
      (fun held state packet state' merges stepped => ?_) initial ran
    exact merges.mergePacket stepped
  obtain ⟨files, follows⟩ := merges.follows.apply
  exact ⟨files, follows, merges.checksums, merges.slices⟩

theorem Shows.mergeAll {set merged : Par2FileSet} {parts : List (List Packet)}
    (shown : Shows translate held set) (joined : set.mergeAll translate parts = .ok merged) :
    Shows translate (mergedIn parts.flatten held) merged := by
  have together : parts.foldl (fun held part => mergedIn part held) held = mergedIn parts.flatten held := by
    unfold mergedIn
    rw [foldl_flatten]
  rw [← together]
  refine foldlM_invariant (fun held set => Shows _ held set) (fun held set part set' shown stepped => ?_) shown joined
  dsimp only [Functor.map, Except.map] at stepped
  split at stepped
  · cases stepped
  · rename_i state merged
    obtain rfl := Except.ok.inj stepped
    exact shown.mergePackets merged

end Runs

/-! ### The set one scan would build -/

/-- What later packets must be for merging them in to give what one scan gives. -/
structure MergesCleanly (set : Par2FileSet) (first later : List Packet) : Prop where
  /-- No description passes the limit on files. -/
  files : (set.files.keys ∪ ((descriptionsOf later).map (·.1)).toFinset).card ≤ maxFilesPerSet
  /-- Every recovery slice has a usable exponent, and the first slice under that exponent has the right length. -/
  slices : ∀ entry ∈ slicesOf later, entry.1 ≤ maxRecoveryExponent ∧
    ∃ slice, firstOf (slicesOf (first ++ later)) entry.1 = some slice ∧ slice.data.len = set.sliceSize
  /-- Where the first part left no checksums, the first ones to come are those one scan finds to fit the file. -/
  checksums : ∀ file, set.sliceChecksums.lookup file = none → firstOf (checksumsOf later) file =
    ((scanned (first ++ later)).checksums.lookup file).filter (fits (scanned (first ++ later)).files set.sliceSize file)

section Agreement
variable {translate : Translation} {retainedBytes : Packet → Nat} {first later : List Packet} {set merged whole : Par2FileSet}

theorem scanned_append : scanned (first ++ later) =
    later.foldl (.keep (some maxFilesPerSet) (· ≤ maxRecoveryExponent)) (scanned first) := foldl_append

theorem scanned_files_append : (scanned (first ++ later)).files =
    (descriptionsOf later).foldl (offer (some maxFilesPerSet)) (scanned first).files := by
  rw [scanned_append, Inventory.files_foldl_keep]

theorem mergedIn_names (sliceSize : Nat) :
    (mergedIn later ((scanned first).checked sliceSize)).names = (scanned (first ++ later)).names := by
  rw [mergedIn, Inventory.names_foldl_keep, scanned_append, Inventory.names_foldl_keep]
  rfl

theorem mergedIn_files (sliceSize : Nat) : (mergedIn later ((scanned first).checked sliceSize)).files =
    (descriptionsOf later).foldl (offer none) (scanned first).files := by
  rw [mergedIn, Inventory.files_foldl_keep]
  rfl

theorem card_scanned_files (packets : List Packet) : (scanned packets).files.keys.card ≤ maxFilesPerSet := by
  rw [scanned, Inventory.files_foldl_keep]
  exact card_foldl_offer_le _ (Nat.zero_le _)

theorem lookup_scanned_slices (packets : List Packet) (exponent : Nat) : (scanned packets).slices.lookup exponent =
    if exponent ≤ maxRecoveryExponent then firstOf (slicesOf packets) exponent else none := by
  rw [scanned, Inventory.slices_foldl_keep, lookup_foldl_offer_none]
  refine none_or.trans ((firstOf_filter _ (fun exponent => decide (exponent ≤ maxRecoveryExponent)) _).trans ?_)
  simp only [decide_eq_true_eq]

theorem slicesOf_append : slicesOf (first ++ later) = slicesOf first ++ slicesOf later := filterMap_append

/-- The checksums a first part kept, one scan keeps. -/
theorem checksums_kept {sliceSize : Nat} {file : FileId} {checksums : List SliceChecksum}
    (kept : ((scanned first).checked sliceSize).checksums.lookup file = some checksums) :
    ((scanned (first ++ later)).checked sliceSize).checksums.lookup file = some checksums := by
  dsimp only [Inventory.checked] at kept ⊢
  rw [lookup_retain] at kept ⊢
  obtain ⟨held, right⟩ := filter_eq_some_iff.mp kept
  refine filter_eq_some_iff.mpr ⟨?_, ?_⟩
  · rw [scanned_append, Inventory.checksums_foldl_keep]
    exact lookup_foldl_offer _ _ held
  · unfold fits at right ⊢
    split at right
    · cases right
    · rename_i description known
      rw [scanned_files_append, lookup_foldl_offer _ _ known]
      exact right

section
variable (joined : Shows translate (mergedIn later ((scanned first).checked set.sliceSize)) merged)
  (once : Shows translate ((scanned (first ++ later)).checked set.sliceSize) whole)
include joined once

/-- The recovery slices agree when all that come are of use. -/
theorem slices_agree_iff : merged.recoverySlices = whole.recoverySlices ↔ ∀ entry ∈ slicesOf later, entry.1 ≤ maxRecoveryExponent ∧
      ∃ slice, firstOf (slicesOf (first ++ later)) entry.1 = some slice ∧ slice.data.len = set.sliceSize := by
  have each (exponent : Nat) : merged.recoverySlices.lookup exponent = whole.recoverySlices.lookup exponent ↔
      (firstOf (slicesOf later) exponent ≠ none → exponent ≤ maxRecoveryExponent ∧
        ∃ slice, firstOf (slicesOf (first ++ later)) exponent = some slice ∧ slice.data.len = set.sliceSize) := by
    rw [joined.slices, once.slices, mergedIn, Inventory.slices_foldl_keep, lookup_foldl_offer_none,
      filter_eq_self.mpr fun _ _ => rfl]
    dsimp only [Inventory.checked]
    rw [lookup_retain, lookup_retain, lookup_scanned_slices, lookup_scanned_slices, slicesOf_append, firstOf_append]
    by_cases usable : exponent ≤ maxRecoveryExponent
    · rw [if_pos usable, if_pos usable]
      cases firstOf _ exponent with
      | none => cases firstOf _ exponent <;> simp [usable, Option.filter]
      | some slice =>
        grind
    · grind
  constructor
  · intro same entry member
    refine (each entry.1).mp (by rw [same]) fun none => ?_
    exact firstOf_eq_none_iff.mp none entry member rfl
  · intro useful
    ext1 exponent
    refine (each _).mpr fun some => ?_
    obtain ⟨entry, member, rfl⟩ : ∃ entry ∈ slicesOf later, entry.1 = exponent := by
      by_contra absent
      exact some (firstOf_eq_none_iff.mpr fun entry member same => absent ⟨entry, member, same⟩)
    exact useful entry member

variable (built : Shows translate ((scanned first).checked set.sliceSize) set)
include built

/-- The descriptions and names agree when the limit on files is kept. -/
theorem files_agree_iff : merged.files = whole.files ↔ (set.files.keys ∪ ((descriptionsOf later).map (·.1)).toFinset).card ≤ maxFilesPerSet := by
  have limit := foldl_offer_limit_iff (descriptionsOf later) (card_scanned_files first)
  rw [← mergedIn_files set.sliceSize, ← scanned_files_append] at limit
  have keys : (mergedIn later ((scanned first).checked set.sliceSize)).files.keys =
      set.files.keys ∪ ((descriptionsOf later).map (·.1)).toFinset := by
    rw [mergedIn_files, keys_foldl_offer_none, built.follows.keys]
    rfl
  rw [← keys]
  constructor
  · intro same
    rw [← joined.follows.keys, same, once.follows.keys]
    exact card_scanned_files _
  · intro small
    ext1 file
    rw [joined.files, once.files, mergedIn_names, limit.mpr small]
    rfl

/-- The checksums agree when those that come late are the ones to be kept. -/
theorem checksums_agree_iff : merged.sliceChecksums = whole.sliceChecksums ↔
      ∀ file, set.sliceChecksums.lookup file = none → firstOf (checksumsOf later) file =
        ((scanned (first ++ later)).checksums.lookup file).filter (fits (scanned (first ++ later)).files set.sliceSize file) := by
  have after (file : FileId) : merged.sliceChecksums.lookup file =
      (set.sliceChecksums.lookup file).or (firstOf (checksumsOf later) file) := by
    rw [joined.checksums, mergedIn, Inventory.checksums_foldl_keep, lookup_foldl_offer_none, built.checksums]
  have once' (file : FileId) : whole.sliceChecksums.lookup file =
      ((scanned (first ++ later)).checksums.lookup file).filter (fits (scanned (first ++ later)).files set.sliceSize file) := by
    rw [once.checksums]
    exact lookup_retain _ _ _
  constructor
  · grind
  · intro late
    ext1 file
    rw [after]
    cases known : set.sliceChecksums.lookup file with
    | none => rw [none_or, late file known, once']
    | some checksums =>
      rw [some_or, once.checksums]
      exact (checksums_kept (built.checksums ▸ known)).symm

end

end Agreement

/-- A Main packet for slices of four bytes. -/
def fourByteMain : Packet := .main ⟨.replicate 16 0, 4, [], [], by decide⟩

/-- A recovery slice under exponent 0 with these bytes. -/
def sliceZero (data : List UInt8) : Packet := .recoverySlice ⟨0, .inMemory data⟩

end Rarpar.Par2

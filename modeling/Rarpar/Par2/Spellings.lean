import Rarpar.Par2.SetMerge

namespace Rarpar.Par2
open Table Function List Par2FileSet

/-! The name of a file after all packets, whatever their order and their parts. -/

/-- The packets for the file carry this name and no other. -/
def Agree (spellings : List UnicodeFilenamePacket) (file : FileId) (name : String) : Prop :=
  (∃ packet ∈ spellings, packet.fileId = file) ∧ ∀ packet ∈ spellings, packet.fileId = file → packet.name = name

/-- What is known of each file after these packets. -/
structure Heard (spellings : List UnicodeFilenamePacket) (names : Table FileId (Option String)) : Prop where
  keys : names.keys = (spellings.map (·.fileId)).toFinset
  agreed : ∀ file name, names.lookup file = some (some name) ↔ Agree spellings file name

variable {spellings : List UnicodeFilenamePacket} {names : Table FileId (Option String)} {packet : UnicodeFilenamePacket}
  {file : FileId}

theorem agree_concat {name : String} : Agree (spellings ++ [packet]) packet.fileId name ↔
    packet.name = name ∧ ∀ other ∈ spellings, other.fileId = packet.fileId → other.name = name := by
  simp [Agree, or_imp, forall_and, and_comm]

theorem agree_concat_of_ne {name : String} (other : packet.fileId ≠ file) :
    Agree (spellings ++ [packet]) file name ↔ Agree spellings file name := by
  simp [Agree, or_and_right, exists_or, or_imp, forall_and, other]

theorem lookup_spell_of_ne (other : packet.fileId ≠ file) : (spell names packet).lookup file = names.lookup file := by
  have kept (value : Option String) : (names.insert packet.fileId value).lookup file = names.lookup file :=
    update_of_ne (Ne.symm other) _ _
  unfold spell UnicodeNames.add
  grind

theorem spell_full (unheard : packet.fileId ∉ names.keys) (full : maxFilesPerSet ≤ names.keys.card) : spell names packet = names := by
  simp [spell, UnicodeNames.add, notMem_keys.mp unheard, full]

/-- A packet is heard while there is room for its file. -/
theorem Heard.spell (heard : Heard spellings names)
    (room : ((spellings ++ [packet]).map (·.fileId)).toFinset.card ≤ maxFilesPerSet) :
    Heard (spellings ++ [packet]) (Par2.spell names packet) := by
  have keys : ((spellings ++ [packet]).map (·.fileId)).toFinset = Insert.insert packet.fileId names.keys := by
    rw [heard.keys]
    ext file
    simp [eq_comm]
  rw [keys] at room
  have own : (Par2.spell names packet).keys = Insert.insert packet.fileId names.keys ∧
      ∀ name, (Par2.spell names packet).lookup packet.fileId = some (some name) ↔
        Agree (spellings ++ [packet]) packet.fileId name := by
    have before := heard.agreed packet.fileId
    have inside (value : Option String) : (names.insert packet.fileId value).lookup packet.fileId = some value :=
      update_self _ _ _
    simp only [agree_concat]
    unfold Par2.spell UnicodeNames.add
    by_cases known : packet.fileId ∈ names.keys
    · -- the file has packets already, which agreed on a name or did not
      obtain ⟨earlier, member, same⟩ : ∃ other ∈ spellings, other.fileId = packet.fileId := by
        rw [heard.keys] at known
        simpa using known
      obtain ⟨spelling, there⟩ := Option.isSome_iff_exists.mp ((names.mem_keys _).mp known)
      rw [Finset.insert_eq_of_mem known]
      unfold Agree at before
      cases spelling with
      | none => grind
      | some spelling =>
        simp only [there]
        split
        · grind
        · refine ⟨Finset.insert_eq_of_mem known, ?_⟩
          grind
    · have new : ∀ other ∈ spellings, other.fileId ≠ packet.fileId := by
        rw [heard.keys] at known
        simpa using known
      rw [Finset.card_insert_of_notMem known] at room
      have free : ¬ maxFilesPerSet ≤ names.keys.card := by omega
      simp only [notMem_keys.mp known, ge_iff_le, if_neg free, inside]
      exact ⟨rfl, by grind⟩
  refine ⟨own.1.trans keys.symm, fun file name => ?_⟩
  by_cases same : packet.fileId = file
  · exact same ▸ own.2 name
  · rw [lookup_spell_of_ne same, agree_concat_of_ne same, heard.agreed]

theorem heard_foldl (few : (spellings.map (·.fileId)).toFinset.card ≤ maxFilesPerSet) :
    Heard spellings (spellings.foldl Par2.spell .empty) := by
  induction spellings using reverseRecOn with
  | nil => exact ⟨rfl, fun _ _ => iff_of_false nofun fun agree => by simpa using agree.1⟩
  | append_singleton front last ih =>
    have fewer : (front.map (·.fileId)).toFinset ⊆ ((front ++ [last]).map (·.fileId)).toFinset := by
      rw [map_append, toFinset_append]
      exact Finset.subset_union_left
    rw [foldl_concat]
    exact (ih ((Finset.card_le_card fewer).trans few)).spell few

/-- Every description held is that of a packet. -/
theorem lookup_offer_mem {κ ν : Type*} [DecidableEq κ] {limit : Option Nat} {entries : List (κ × ν)} {t : Table κ ν} {key : κ}
    {value : ν} (found : (entries.foldl (offer limit) t).lookup key = some value) :
    t.lookup key = some value ∨ (key, value) ∈ entries := by
  induction entries generalizing t with
  | nil => exact .inl found
  | cons entry rest ih =>
    rcases ih found with there | later
    · unfold offer at there
      split at there
      · exact .inl there
      split at there
      · exact .inl there
      rw [show (t.insert entry.1 entry.2).lookup key = _ from update_apply ..] at there
      grind
    · exact .inr (mem_cons_of_mem _ later)

/-- However packets are ordered and split between the first build and later merges, a described file ends with the name its Unicode
packets agree on if that name has a translation, and else with the names of its description, as long as no more files have Unicode
names than a set may hold. -/
theorem Par2FileSet.mergeAll_names (retainedBytes : Packet → Nat) (translate : Translation) (first : List Packet)
    (parts : List (List Packet)) {set merged : Par2FileSet} (built : fromPackets retainedBytes translate first = .ok set)
    (joined : set.mergeAll translate parts = .ok merged)
    (few : ((spellingsOf (first ++ parts.flatten)).map (·.fileId)).toFinset.card ≤ maxFilesPerSet)
    (file : FileId) {current : FileDescription} (found : merged.files.lookup file = some current) :
    ∃ description, (file, description) ∈ descriptionsOf (first ++ parts.flatten) ∧
      (∀ name filename, Agree (spellingsOf (first ++ parts.flatten)) file name → translate name = some filename →
        current = if description.par2Name = name then description else { description with par2Name := name, filename := filename }) ∧
      ((∀ name, Agree (spellingsOf (first ++ parts.flatten)) file name → translate name = none) → current = description) := by
  obtain ⟨built, -⟩ := shows_of_fromPackets built
  have joined := built.mergeAll joined
  obtain ⟨description, there, rfl⟩ := Option.map_eq_some_iff.mp ((joined.files file).symm.trans found)
  have listed : (file, description) ∈ descriptionsOf (first ++ parts.flatten) := by
    rw [descriptionsOf, filterMap_append, mem_append]
    rw [mergedIn_files] at there
    refine (lookup_offer_mem there).imp_left fun there => ?_
    rw [scanned, Inventory.files_foldl_keep] at there
    exact (lookup_offer_mem there).resolve_left (by simp [Table.empty])
  have heard : Heard (spellingsOf (first ++ parts.flatten)) (scanned (first ++ parts.flatten)).names := by
    rw [scanned, Inventory.names_foldl_keep]
    exact heard_foldl few
  rw [mergedIn_names]
  refine ⟨description, listed, fun name filename agree translated => ?_, fun none => ?_⟩
  · rw [(heard.agreed _ _).mpr agree, named, translated]
  · unfold named
    split
    · rename_i name known
      rw [none name ((heard.agreed _ _).mp known)]
      exact ite_self _
    · rfl

/-- The ids of many files. -/
def numbered (i : Nat) : FileId := Vector.ofFn fun k => UInt8.ofNat (i / 256 ^ k.val)

def late : FileId := numbered maxFilesPerSet

/-- A file described under the name `a`. -/
def plain : Packet := .fileDescription ⟨late, .replicate 16 0, .replicate 16 0, 0, "a", "a", [97]⟩

/-- A packet that spells the file's name `ä`. -/
def umlaut (file : FileId) : UnicodeFilenamePacket := ⟨file, "ä"⟩

/-- A name that comes after the set was built. -/
theorem mergeAll_names_late : ∃ set merged current,
    fromPackets (fun _ => 0) some [fourByteMain, plain] = .ok set ∧
    set.mergeAll some [[.unicodeFilename (umlaut late)]] = .ok merged ∧
    merged.files.lookup late = some current ∧ current.par2Name = "ä" := by
  refine ⟨_, _, _, rfl, rfl, rfl, ?_⟩
  obtain ⟨_, -, named, -⟩ := mergeAll_names (fun _ => 0) some [fourByteMain, plain]
    [[.unicodeFilename (umlaut late)]] rfl rfl (by decide) late rfl
  rw [named "ä" "ä" ⟨⟨_, mem_singleton_self _, rfl⟩, by simp [spellingsOf, umlaut, fourByteMain, plain]⟩ rfl]
  split
  · assumption
  · rfl

theorem numbered_inj {i j : Nat} (small : i < 2 ^ 16) (small' : j < 2 ^ 16) (same : numbered i = numbered j) : i = j := by
  have byte (k : Fin 16) := congrArg (fun id : FileId => id[k].toNat) same
  have low := byte 0
  have high := byte 1
  simp [numbered] at low high
  omega

/-- Names alone are always merged. -/
theorem mergePackets_names_ok (translate : Translation) (set : Par2FileSet) (spellings : List UnicodeFilenamePacket) :
    ∃ state, set.mergePackets translate (spellings.map .unicodeFilename) = .ok state := by
  have folds (state : Par2FileSet × MergeResult) : ∃ after,
      (spellings.map Packet.unicodeFilename).foldlM mergePacket state = .ok after := by
    induction spellings generalizing state with
    | nil => exact ⟨state, rfl⟩
    | cons packet rest ih => exact ih _
  obtain ⟨after, ran⟩ := folds (set, ⟨0, 0⟩)
  unfold mergePackets
  dsimp only
  split_ifs with conflict
  · simp at conflict
  · rw [ran]
    exact ⟨_, rfl⟩

/-- As many names as a set may hold. -/
def crowd : List UnicodeFilenamePacket := (range maxFilesPerSet).map fun i => umlaut (numbered i)

theorem crowd_apart : ∀ packet ∈ crowd, packet.fileId ≠ late := by
  intro packet member same
  obtain ⟨i, inside, rfl⟩ := mem_map.mp member
  rw [mem_range, maxFilesPerSet] at inside
  exact inside.ne (numbered_inj (by omega) (by decide) same)

theorem crowd_card : (crowd.map (·.fileId)).toFinset.card = maxFilesPerSet := by
  have ids : crowd.map (·.fileId) = (range maxFilesPerSet).map numbered := by
    rw [crowd, map_map]
    rfl
  rw [ids, toFinset_card_of_nodup, length_map, length_range]
  refine nodup_range.map_on fun i inside j inside' same => ?_
  rw [mem_range, maxFilesPerSet] at inside inside'
  exact numbered_inj (by omega) (by omega) same

/-- One file more than a set may name: whether the last one has its name depends on the order of the packets. -/
theorem mergePackets_names_crowded : ∃ (set : Par2FileSet) (state state' : Par2FileSet × MergeResult)
    (names names' : List UnicodeFilenamePacket), names.Perm names' ∧
    fromPackets (fun _ => 0) some [fourByteMain, plain] = .ok set ∧
    set.mergePackets some (names.map .unicodeFilename) = .ok state ∧
    set.mergePackets some (names'.map .unicodeFilename) = .ok state' ∧
    (state.1.files.lookup late).map (·.par2Name) = some "a" ∧
    (state'.1.files.lookup late).map (·.par2Name) = some "ä" := by
  obtain ⟨set, built⟩ : ∃ set, fromPackets (fun _ => 0) some [fourByteMain, plain] = .ok set :=
    ⟨_, rfl⟩
  obtain ⟨state, merged⟩ := mergePackets_names_ok some set (crowd ++ [umlaut late])
  obtain ⟨state', merged'⟩ := mergePackets_names_ok some set (umlaut late :: crowd)
  have shown := (shows_of_fromPackets built).1
  have ends (names : List UnicodeFilenamePacket) {state : Par2FileSet × MergeResult}
      (merged : set.mergePackets some (names.map .unicodeFilename) = .ok state) : state.1.files.lookup late =
        some (Par2.named some ((names.foldl spell .empty).lookup late)
          ⟨late, .replicate 16 0, .replicate 16 0, 0, "a", "a"⟩) := by
    have spellings : spellingsOf ([fourByteMain, plain] ++ names.map .unicodeFilename) = names := by
      simp [spellingsOf, fourByteMain, plain]
    have descriptions : descriptionsOf (names.map .unicodeFilename) = [] := by simp [descriptionsOf]
    rw [(shown.mergePackets merged).files, mergedIn_files, mergedIn_names, descriptions, scanned, Inventory.names_foldl_keep, spellings]
    rfl
  refine ⟨set, state, state', _, _, perm_append_singleton _ _, built, merged, merged', ?_, ?_⟩
  · have heard := heard_foldl crowd_card.le
    have unheard : late ∉ (crowd.foldl spell .empty).keys := by
      rw [heard.keys]
      simpa using crowd_apart
    have full : maxFilesPerSet ≤ (crowd.foldl spell .empty).keys.card := by rw [heard.keys, crowd_card]
    rw [ends _ merged, foldl_concat]
    generalize crowd.foldl spell .empty = held at unheard full ⊢
    rw [spell_full unheard full, notMem_keys.mp unheard]
    rfl
  · have kept (names : List UnicodeFilenamePacket) (apart : ∀ packet ∈ names, packet.fileId ≠ late)
        (held : Table FileId _) :
        (names.foldl spell held).lookup late = held.lookup late := by
      induction names generalizing held with
      | nil => rfl
      | cons packet rest ih =>
        obtain ⟨first, others⟩ := forall_mem_cons.mp apart
        rw [foldl_cons, ih others, lookup_spell_of_ne first]
    rw [ends _ merged', foldl_cons, kept _ crowd_apart]
    rfl

end Rarpar.Par2

import Mathlib.Algebra.Order.BigOperators.Group.List
import Mathlib.Algebra.Order.Ring.Nat
import Rarpar.Par3.TreeExact

namespace Rarpar.Par3
open List TreePackets

open Chains (Below Expands Kind Reachable Cyclic)

/-! Which trees are resolved, and to what. -/

namespace TreePackets
variable {packets : TreePackets} {root : RootPacket} {blockSize : Nat} {chain : List Fingerprint}
  {chains : List (List Fingerprint)}

/-- The trees that no limits let through. -/
inductive Refused (packets : TreePackets) (root : RootPacket) (blockSize : Nat) : Prop
  | missing {hash : Fingerprint} (reach : Reachable packets.kind root.children hash) (absent : packets.kind hash = .missing)
  | cycle (cyclic : Cyclic packets.kind root.children)
  | rootClash (same : ¬ (root.children.filterMap packets.name).Nodup)
  | clash {hash : Fingerprint} {sub : List Fingerprint} (reach : Reachable packets.kind root.children hash)
      (branch : packets.kind hash = .branch sub) (same : ¬ (sub.filterMap packets.name).Nodup)
  | overflow {hash : Fingerprint} {file : FilePacket} (reach : Reachable packets.kind root.children hash)
      (found : packets.files.lookup hash = some file) (large : 2 ^ 64 ≤ (file.chunks.map ChunkDescription.length).sum)
  | leavesSet {hash : Fingerprint} {file : FilePacket} {chunk : ChunkDescription} {index : Nat}
      (reach : Reachable packets.kind root.children hash) (found : packets.files.lookup hash = some file) (member : chunk ∈ file.chunks)
      (refers : chunk.Refers blockSize index) (outside : root.lowestUnusedBlockIndex ≤ index)

/-- The files and directories are the chains of packets from the root, one entry for each, with paths of their own that
stay below the root and blocks that the set has. -/
structure Resolved (packets : TreePackets) (root : RootPacket) (blockSize : Nat) (files : List Par3File)
    (directories : List Par3Directory) : Prop where
  exact : ∃ chains : List (List Fingerprint), chains.Nodup ∧ (∀ chain, chain ∈ chains ↔ Below packets.kind [] root.children chain) ∧
    (∀ chain ∈ chains, (packets.fileAt chain).isSome = !(packets.directoryAt chain).isSome) ∧
    files = chains.filterMap packets.fileAt ∧ directories = chains.filterMap packets.directoryAt
  paths : (files.map Par3File.path ++ directories.map Par3Directory.path).Nodup
  components : ∀ path ∈ files.map Par3File.path ++ directories.map Par3Directory.path, ∀ component ∈ path.splitOn 47,
    SafeComponent component
  blocks : ∀ file ∈ files, ∀ chunk ∈ file.packet.chunks, ∀ index, chunk.Refers blockSize index → index < root.lowestUnusedBlockIndex

/-! ### Entries -/

theorem filterMap_name {children : List Fingerprint} (present : ∀ child ∈ children, packets.kind child ≠ .missing) :
    children.filterMap packets.name = children.map packets.nameOf := by
  induction children with
  | nil => rfl
  | cons child rest ih =>
    obtain ⟨here, others⟩ := forall_mem_cons.mp present
    obtain ⟨name, named⟩ := Option.ne_none_iff_exists'.mp fun none => here (name_eq_none_iff.mp none)
    rw [filterMap_cons_some named, map_cons, ih others, nameOf, named]
    rfl

/-- Chains that all end at a packet of known size. -/
def Listed (packets : TreePackets) (chains : List (List Fingerprint)) : Prop :=
  ∀ chain ∈ chains, (∃ file, packets.fileAt chain = some file ∧ packets.directoryAt chain = none ∧ file.path = packets.pathOf chain) ∨
    ∃ directory, packets.fileAt chain = none ∧ packets.directoryAt chain = some directory ∧ directory.path = packets.pathOf chain

/-- The paths of the entries are those of the chains. -/
theorem Listed.paths_perm (listed : Listed packets chains) :
    ((chains.filterMap packets.fileAt).map Par3File.path ++ (chains.filterMap packets.directoryAt).map Par3Directory.path).Perm
      (chains.map packets.pathOf) := by
  induction chains with
  | nil => exact .nil
  | cons chain rest ih =>
    obtain ⟨here, others⟩ := forall_mem_cons.mp listed
    have tails := ih others
    rcases here with ⟨file, asFile, notDirectory, path⟩ | ⟨directory, notFile, asDirectory, path⟩
    · grind
    · grind

/-- Chains of different names have different paths. -/
theorem pathOf_nodup (present : ∀ chain ∈ chains, chain ≠ [] ∧ ∀ hash ∈ chain, packets.kind hash ≠ .missing)
    (names : (chains.map (map packets.nameOf)).Nodup) : (chains.map packets.pathOf).Nodup := by
  refine List.Nodup.map_on (fun chain member chain' member' same => ?_) names.of_map
  obtain ⟨nonempty, keys⟩ := present chain member
  obtain ⟨nonempty', keys'⟩ := present chain' member'
  have parts := splitOn_pathOf keys nonempty
  rw [same, splitOn_pathOf keys' nonempty'] at parts
  exact inj_on_of_nodup_map names member member' (reverse_injective parts).symm

end TreePackets

namespace TreeWalk
variable {walk : TreeWalk} {root : RootPacket} {blockSize : Nat} {files : List Par3File} {directories : List Par3Directory}

theorem resolve_eq_ok_iff : walk.resolve root blockSize = some (.ok (files, directories)) ↔
    ∃ state, walk.run root.children = some (.ok state) ∧ files = state.files ∧ directories = state.directories ∧
      state.files.forM (checkBlockIndices root.lowestUnusedBlockIndex blockSize) = .ok () := by
  unfold resolve
  match walk.run root.children with
  | none => exact ⟨nofun, fun ⟨_, ran, _⟩ => nomatch ran⟩
  | some (.error e) => exact ⟨nofun, fun ⟨_, ran, _⟩ => nomatch ran⟩
  | some (.ok state) =>
    grind

/-- A walk that succeeds has a listing, and its entries are those of the listing. -/
structure Listing (packets : TreePackets) (root : RootPacket) (blockSize : Nat) (files : List Par3File)
    (directories : List Par3Directory) (chains : List (List Fingerprint)) : Prop where
  sane : packets.Sane root.children
  expands : Expands packets.kind packets.Sane [] root.children chains
  sized : Sized packets chains
  fileEntries : files = chains.filterMap packets.fileAt
  directoryEntries : directories = chains.filterMap packets.directoryAt
  blocks : ∀ file ∈ files, ∀ chunk ∈ file.packet.chunks, ∀ index, chunk.Refers blockSize index → index < root.lowestUnusedBlockIndex

theorem exists_listing (width : root.lowestUnusedBlockIndex < 2 ^ 64)
    (resolved : walk.resolve root blockSize = some (.ok (files, directories))) :
    ∃ chains, Listing walk.packets root blockSize files directories chains := by
  obtain ⟨state, ran, rfl, rfl, checked⟩ := resolve_eq_ok_iff.mp resolved
  obtain ⟨sane, chains, expands, sized, listed, listed'⟩ := run_lists ran
  refine ⟨chains, sane, expands, sized, listed, listed', fun file member => ?_⟩
  exact (checkBlockIndices_eq_ok_iff width _ file).mp (forM_eq_ok_iff.mp checked file member)

namespace Listing
variable {packets : TreePackets} {chains : List (List Fingerprint)}

section
variable (listing : Listing packets root blockSize files directories chains)
include listing

theorem sound : ∀ chain ∈ chains, Chains.Sound packets.kind packets.Sane chain :=
  listing.expands.sound ⟨.nil, nofun, nofun⟩ nofun

theorem present : ∀ chain ∈ chains, chain ≠ [] ∧ ∀ hash ∈ chain, packets.kind hash ≠ .missing := by
  intro chain member
  refine ⟨?_, (listing.sound chain member).present⟩
  obtain ⟨front, hash, rfl, -⟩ := (listing.expands.mem_iff.mp member).shape
  simp

/-- The one entry of a chain has its path. -/
theorem listed : packets.Listed chains := by
  intro chain member
  obtain ⟨nonempty, keys⟩ := listing.present chain member
  obtain ⟨hash, up, rfl⟩ := exists_cons_of_ne_nil nonempty
  rcases packets.lookup_cases hash with ⟨noFile, noDirectory⟩ | ⟨file, found⟩ | ⟨directory, noFile, found⟩
  · exact absurd (kind_missing noFile noDirectory) (keys hash mem_cons_self)
  · obtain ⟨size, known⟩ := Option.ne_none_iff_exists'.mp (listing.sized hash up member file found)
    obtain ⟨asFile, notDirectory⟩ := entry_file up found known
    exact .inl ⟨_, asFile, notDirectory, rfl⟩
  · obtain ⟨notFile, asDirectory⟩ := entry_directory up noFile found
    exact .inr ⟨_, notFile, asDirectory, rfl⟩

theorem resolved : packets.Resolved root blockSize files directories := by
  have sane (sub : List Fingerprint) (clean : packets.Sane sub) : (sub.map packets.nameOf).Nodup := clean.2
  have names := listing.expands.names_nodup listing.sane.2 sane
  have perm := listing.listed.paths_perm
  rw [← listing.fileEntries, ← listing.directoryEntries] at perm
  refine ⟨⟨chains, names.of_map, fun chain => listing.expands.mem_iff, fun chain member => ?_, listing.fileEntries, listing.directoryEntries⟩,
    perm.nodup_iff.mpr (pathOf_nodup listing.present names), fun path member component part => ?_, listing.blocks⟩
  · rcases listing.listed chain member with ⟨file, asFile, notDirectory, -⟩ | ⟨directory, notFile, asDirectory, -⟩
    · rw [asFile, notDirectory]
      rfl
    · rw [notFile, asDirectory]
      rfl
  · obtain ⟨chain, inside, rfl⟩ := mem_map.mp (perm.mem_iff.mp member)
    obtain ⟨nonempty, keys⟩ := listing.present chain inside
    rw [splitOn_pathOf keys nonempty, mem_reverse] at part
    obtain ⟨hash, key, rfl⟩ := mem_map.mp part
    exact safe_nameOf (keys hash key)

/-- What has a listing is not refused. -/
theorem not_refused : ¬ packets.Refused root blockSize := by
  -- the chain of a hash that can be reached is in the listing
  have member {hash : Fingerprint} (reach : Reachable packets.kind root.children hash) : ∃ up, hash :: up ∈ chains := by
    obtain ⟨up, below⟩ := reach.exists_below
    exact ⟨up, listing.expands.mem_iff.mpr below⟩
  intro refused
  cases refused with
  | missing reach absent =>
    obtain ⟨up, inside⟩ := member reach
    exact (listing.sound _ inside).present _ mem_cons_self absent
  | cycle cyclic =>
    obtain ⟨chain, below, twice⟩ := cyclic.exists_below
    exact twice (listing.sound chain (listing.expands.mem_iff.mpr below)).nodup
  | rootClash same =>
    rw [filterMap_name listing.sane.1] at same
    exact same listing.sane.2
  | clash reach branch same =>
    obtain ⟨up, inside⟩ := member reach
    have clean := (listing.sound _ inside).clean _ mem_cons_self _ branch
    rw [filterMap_name clean.1] at same
    exact same clean.2
  | @overflow hash file reach found large =>
    obtain ⟨up, inside⟩ := member reach
    exact listing.sized hash up inside file found (file.fileSize_eq_none_iff.mpr large)
  | @leavesSet hash file chunk index reach found part refers outside =>
    obtain ⟨up, inside⟩ := member reach
    obtain ⟨size, known⟩ := Option.ne_none_iff_exists'.mp (listing.sized hash up inside file found)
    have entry := (entry_file up found known).1
    have among := mem_filterMap.mpr ⟨_, inside, entry⟩
    rw [← listing.fileEntries] at among
    exact absurd (listing.blocks _ among chunk part index refers) (Nat.not_lt.mpr outside)

end

end Listing

/-- What is not refused is resolved, with limits that are large enough. -/
theorem resolve_of_not_refused (packets : TreePackets) (root : RootPacket) (blockSize : Nat)
    (width : root.lowestUnusedBlockIndex < 2 ^ 64) (accepted : ¬ packets.Refused root blockSize) :
    ∃ enough : SetLimits, ∀ walk : TreeWalk, walk.packets = packets → enough ≤ walk.limits → (∀ count, walk.charge count) →
      ∃ found, walk.resolve root blockSize = some (.ok found) := by
  have sane {sub : List Fingerprint} (present : ∀ child ∈ sub, packets.kind child ≠ .missing)
      (unique : (sub.filterMap packets.name).Nodup) : packets.Sane sub :=
    ⟨present, filterMap_name present ▸ unique⟩
  have present {hash : Fingerprint} (reach : Reachable packets.kind root.children hash) : packets.kind hash ≠ .missing :=
    fun absent => accepted (.missing reach absent)
  have rootSane : packets.Sane root.children :=
    sane (fun child member => present ⟨child, member, .refl⟩) (by_contra fun same => accepted (.rootClash same))
  have sound (chain : List Fingerprint) (below : Below packets.kind [] root.children chain) :
      Chains.Sound packets.kind packets.Sane chain := by
    refine ⟨below.nodup fun cyclic => accepted (.cycle cyclic), fun hash member => present (below.reachable hash member), ?_⟩
    intro hash member sub branch
    refine sane (fun child inside => present ?_) (by_contra fun same => accepted (.clash (below.reachable hash member) branch same))
    obtain ⟨top, start, path⟩ := below.reachable hash member
    exact ⟨top, start, path.tail ⟨sub, branch, inside⟩⟩
  have finite : ∀ hash sub, packets.kind hash = .branch sub → hash ∈ packets.directories.keys := by
    intro hash sub branch
    obtain ⟨directory, -, found, -⟩ := kind_eq_branch branch
    exact (packets.directories.mem_keys hash).mpr (Option.isSome_of_eq_some found)
  obtain ⟨chains, expands⟩ := Expands.total finite sound
  have sized : Sized packets chains := by
    intro hash up member file found none
    have reach := (expands.mem_iff.mp member).reachable hash mem_cons_self
    exact accepted (.overflow reach found (file.fileSize_eq_none_iff.mp none))
  refine ⟨⟨chains.length, (chains.map length).sum, 2 ^ 64 - 1⟩, ?_⟩
  rintro walk rfl ⟨entries, depth, paths⟩ charge
  have enough : Enough walk chains (initial root.children) := by
    refine ⟨?_, fun chain member => ?_, paths, charge⟩
    · exact (Nat.zero_add _).trans_le entries
    · exact (single_le_sum (fun _ _ => Nat.zero_le _) _ (mem_map_of_mem member)).trans depth
  obtain ⟨final, ran⟩ := run_of_expands rootSane expands sized enough
  refine ⟨(final.files, final.directories), resolve_eq_ok_iff.mpr ⟨final, ran, rfl, rfl, forM_eq_ok_iff.mpr fun file member => ?_⟩⟩
  obtain ⟨-, chains', expands', -, listed, -⟩ := run_lists ran
  rw [listed] at member
  obtain ⟨chain, inside, entry⟩ := mem_filterMap.mp member
  obtain ⟨hash, up, rfl, found⟩ := fileAt_eq_some entry
  have reach := (expands'.mem_iff.mp inside).reachable hash mem_cons_self
  refine (checkBlockIndices_eq_ok_iff width _ file).mpr fun chunk part index refers => ?_
  by_contra outside
  exact accepted (.leavesSet reach found part refers (Nat.not_lt.mp outside))

theorem resolve_ne_none (walk : TreeWalk) (root : RootPacket) (blockSize : Nat) : walk.resolve root blockSize ≠ none := by
  unfold resolve
  match ran : walk.run root.children with
  | none => exact absurd ran (walk.run_ne_none root.children)
  | some (.error e) => exact nofun
  | some (.ok state) =>
    grind

theorem resolve_of_refused (width : root.lowestUnusedBlockIndex < 2 ^ 64) (refused : walk.packets.Refused root blockSize) :
    ∃ e, walk.resolve root blockSize = some (.error e) := by
  match resolved : walk.resolve root blockSize with
  | none => exact absurd resolved (walk.resolve_ne_none root _)
  | some (.error e) => exact ⟨e, rfl⟩
  | some (.ok (files, directories)) =>
    obtain ⟨chains, listing⟩ := exists_listing width resolved
    exact absurd refused listing.not_refused

theorem noCycle_checkChunkIndices (blockCount blockSize : Nat) (chunk : ChunkDescription) :
    NoCycle (checkChunkIndices blockCount blockSize chunk) := by
  have index (index : Nat) : NoCycle (checkIndex blockCount index) := by
    intro inputSetId
    unfold checkIndex
    split_ifs
    · exact nofun
    · exact nofun
  cases chunk with
  | unprotectedChunk length => exact .pure ()
  | protectedChunk length firstBlockIndex tail =>
    refine NoCycle.bind ?_ fun _ => ?_
    · cases firstBlockIndex with
      | none => exact .pure ()
      | some first =>
        refine (index first).bind fun _ => ?_
        split_ifs
        · exact .pure ()
        · cases checkedAdd first (length / blockSize - 1) with
          | none => exact fun _ => nofun
          | some last => exact index last
    · cases tail with
      | none => exact .pure ()
      | «inline» bytes => exact .pure ()
      | described rollingHash fingerprint blockIndex offset => exact index blockIndex

theorem NoCycle.forM {α : Type} {check : α → Except Par3Error Unit} (each : ∀ item, NoCycle (check item)) (items : List α) :
    NoCycle (items.forM check) := by
  induction items with
  | nil => exact .pure ()
  | cons item rest ih => exact (each item).bind fun _ => ih

theorem resolve_cyclic {inputSetId : InputSetId}
    (failed : walk.resolve root blockSize = some (.error (.cyclicDirectoryTree inputSetId))) : Cyclic walk.packets.kind root.children := by
  unfold resolve at failed
  match ran : walk.run root.children with
  | none =>
    rw [ran] at failed
    cases failed
  | some (.error e) =>
    rw [ran] at failed
    cases failed
    exact run_cyclic ran
  | some (.ok state) =>
    rw [ran] at failed
    dsimp only at failed
    cases checked : state.files.forM (checkBlockIndices root.lowestUnusedBlockIndex blockSize) with
    | error e =>
      rw [checked] at failed
      cases failed
      exact absurd checked (NoCycle.forM (fun _ => NoCycle.forM (noCycle_checkChunkIndices _ _) _) _ _)
    | ok done =>
      grind

/-- The walk always ends. What it resolves are the chains of packets from the root, one entry for each. It reports a cycle
only if there is one, and with limits that are large enough it fails exactly for the trees that are refused. -/
theorem resolve_exact (packets : TreePackets) (root : RootPacket) (blockSize : Nat) (width : root.lowestUnusedBlockIndex < 2 ^ 64) :
    (∀ walk : TreeWalk, walk.packets = packets → walk.resolve root blockSize ≠ none ∧
      (∀ files directories, walk.resolve root blockSize = some (.ok (files, directories)) →
        packets.Resolved root blockSize files directories) ∧
      ∀ inputSetId, walk.resolve root blockSize = some (.error (.cyclicDirectoryTree inputSetId)) →
        Cyclic packets.kind root.children) ∧
    ∃ enough : SetLimits, ∀ walk : TreeWalk, walk.packets = packets → enough ≤ walk.limits → (∀ count, walk.charge count) →
      ((∃ e, walk.resolve root blockSize = some (.error e)) ↔ packets.Refused root blockSize) := by
  constructor
  · rintro walk rfl
    refine ⟨walk.resolve_ne_none root _, fun files directories resolved => ?_, fun _ => resolve_cyclic⟩
    obtain ⟨chains, listing⟩ := exists_listing width resolved
    exact listing.resolved
  · by_cases refused : packets.Refused root blockSize
    · refine ⟨⟨0, 0, 0⟩, ?_⟩
      rintro walk rfl - -
      exact iff_of_true (resolve_of_refused width refused) refused
    · obtain ⟨enough, succeeds⟩ := resolve_of_not_refused packets root _ width refused
      refine ⟨enough, fun walk same larger charge => iff_of_false ?_ refused⟩
      obtain ⟨found, resolved⟩ := succeeds walk same larger charge
      rintro ⟨e, failed⟩
      exact absurd (resolved.symm.trans failed) nofun

/-- A directory that hangs under the root and under another directory, with one file in it. -/
def sharedDirectory : TreePackets where
  files := .tabulate {.replicate 16 3} fun _ => ⟨[102], 0, .replicate 16 0, [], [.protectedChunk 10 (some 1) .none]⟩
  directories := .tabulate {.replicate 16 1, .replicate 16 2} fun hash =>
    if hash = .replicate 16 1 then ⟨[97], [], [.replicate 16 2]⟩ else ⟨[98], [], [.replicate 16 3]⟩
  fileNames hash file found := by
    obtain ⟨-, rfl⟩ := Table.tabulate_eq_some_iff.mp found
    rfl
  directoryNames hash directory found := by
    obtain ⟨-, rfl⟩ := Table.tabulate_eq_some_iff.mp found
    split_ifs
    · rfl
    · rfl

theorem resolve_exact_shared :
    sharedDirectory.Resolved ⟨3, 0, [], [.replicate 16 1, .replicate 16 2]⟩ 5
      [⟨[97, 47, 98, 47, 102], .replicate 16 3, 10, ⟨[102], 0, .replicate 16 0, [], [.protectedChunk 10 (some 1) .none]⟩⟩,
        ⟨[98, 47, 102], .replicate 16 3, 10, ⟨[102], 0, .replicate 16 0, [], [.protectedChunk 10 (some 1) .none]⟩⟩]
      [⟨[97], .replicate 16 1, ⟨[97], [], [.replicate 16 2]⟩⟩, ⟨[97, 47, 98], .replicate 16 2, ⟨[98], [], [.replicate 16 3]⟩⟩,
        ⟨[98], .replicate 16 2, ⟨[98], [], [.replicate 16 3]⟩⟩] :=
  ((resolve_exact sharedDirectory _ 5 (by decide)).1
    ⟨.replicate 8 0, .default, sharedDirectory, fun _ => "", fun _ => true⟩ rfl).2.1 _ _ (by decide +kernel)

/-- A file of two unprotected chunks of half the address space each. -/
def oversizedFile : TreePackets where
  files := .tabulate {.replicate 16 1} fun _ =>
    ⟨[97], 0, .replicate 16 0, [], [.unprotectedChunk (2 ^ 63), .unprotectedChunk (2 ^ 63)]⟩
  directories := .tabulate ∅ fun _ => ⟨[98], [], []⟩
  fileNames hash file found := by
    obtain ⟨-, rfl⟩ := Table.tabulate_eq_some_iff.mp found
    rfl
  directoryNames hash directory found := by
    obtain ⟨-, rfl⟩ := Table.tabulate_eq_some_iff.mp found
    rfl

/-- Nothing is missing, below itself, named twice or outside the set, but no limits let the file through. -/
theorem oversized_file_is_refused :
    (∀ hash, Reachable oversizedFile.kind [.replicate 16 1] hash → oversizedFile.kind hash = .leaf) ∧
      ¬ Cyclic oversizedFile.kind [.replicate 16 1] ∧ ([Vector.replicate 16 1].filterMap oversizedFile.name).Nodup ∧
      (∀ hash file chunk index, oversizedFile.files.lookup hash = some file → chunk ∈ file.chunks → ¬ chunk.Refers 1 index) ∧
      ∀ walk : TreeWalk, walk.packets = oversizedFile → ∃ e, walk.resolve ⟨0, 0, [], [.replicate 16 1]⟩ 1 = some (.error e) := by
  have leaf : oversizedFile.kind (.replicate 16 1) = .leaf := rfl
  have noEdge {hash child : Fingerprint} : ¬ ∃ sub, oversizedFile.kind hash = .branch sub ∧ child ∈ sub := by
    rintro ⟨sub, branch, -⟩
    obtain ⟨directory, -, found, -⟩ := kind_eq_branch branch
    exact absurd (Table.tabulate_eq_some_iff.mp found).1 (Finset.notMem_empty hash)
  refine ⟨fun hash reach => ?_, fun ⟨hash, _, path⟩ => ?_, by decide, fun hash file chunk index found member => ?_, ?_⟩
  · obtain ⟨top, start, path⟩ := reach
    obtain rfl := mem_singleton.mp start
    cases path with
    | refl => exact leaf
    | tail _ edge => exact absurd edge noEdge
  · cases path with
    | single edge => exact absurd edge noEdge
    | tail _ edge => exact absurd edge noEdge
  · obtain ⟨-, rfl⟩ := Table.tabulate_eq_some_iff.mp found
    simp only [mem_cons, not_mem_nil, or_false, or_self] at member
    subst member
    exact id
  · rintro walk same
    refine resolve_of_refused (by decide) ?_
    rw [same]
    exact .overflow ⟨_, mem_singleton_self _, .refl⟩ (Table.tabulate_eq_some_iff.mpr ⟨Finset.mem_singleton_self _, rfl⟩) (by decide)

end TreeWalk
end Rarpar.Par3

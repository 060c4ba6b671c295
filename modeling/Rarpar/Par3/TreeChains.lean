import Rarpar.Data.Chains
import Rarpar.Par3.TreeWalk

namespace Rarpar.Par3
open List ByteParser

open Chains (Below Expands Kind)

/-! What the walk lists: the chains of packets from the root. -/

/-- A name that is one component of a path. -/
structure SafeComponent (name : List UInt8) : Prop where
  nonempty : name ≠ []
  dot : name ≠ [46]
  dotDot : name ≠ [46, 46]
  slash : 47 ∉ name
  backslash : 92 ∉ name
  nul : 0 ∉ name

theorem checkName_eq_ok {name : List UInt8} (ok : checkName name = .ok ()) : SafeComponent name := by
  unfold checkName at ok
  split_ifs at ok with empty relative slash backslash nul
  exact ⟨empty, fun same => relative (.inl same), fun same => relative (.inr same), slash, backslash, nul⟩

theorem nameReader_checked {packet : String} {c c' : Cursor} {name : List UInt8}
    (read : nameReader packet c = .ok (name, c')) : checkName name = .ok () := by
  obtain ⟨_, _, _, read⟩ := bind_eq_ok.mp read
  obtain ⟨bytes, _, _, read⟩ := bind_eq_ok.mp read
  unfold decodeName at read
  split_ifs at read with invalid
  · cases read
  · cases checked : checkName bytes with
    | error e =>
      rw [checked] at read
      cases read
    | ok done =>
      rw [checked] at read
      cases read
      exact checked

variable {file : FilePacket}

/-- The names of parsed packets were checked. -/
theorem FilePacket.parse_name {body : List UInt8} {blockSize : Nat} (parsed : FilePacket.parse body blockSize = .ok file) :
    checkName file.name = .ok () := by
  obtain ⟨c, read⟩ := BodyReader.run_eq_ok parsed
  obtain ⟨name, _, named, read⟩ := bind_eq_ok.mp read
  iterate 6 obtain ⟨_, _, _, read⟩ := bind_eq_ok.mp read
  obtain ⟨rfl, -⟩ := pure_eq_ok.mp read
  exact nameReader_checked named

variable {directory : DirectoryPacket}

theorem DirectoryPacket.parse_name {body : List UInt8} (parsed : DirectoryPacket.parse body = .ok directory) :
    checkName directory.name = .ok () := by
  obtain ⟨c, read⟩ := BodyReader.run_eq_ok parsed
  obtain ⟨name, _, named, read⟩ := bind_eq_ok.mp read
  obtain ⟨_, _, _, read⟩ := bind_eq_ok.mp read
  obtain ⟨rfl, -⟩ := pure_eq_ok.mp read
  exact nameReader_checked named

/-! ### Sizes and block ranges -/

theorem checkedAdd_eq_some_iff {a b sum : Nat} : checkedAdd a b = some sum ↔ a + b < 2 ^ 64 ∧ sum = a + b := by
  unfold checkedAdd
  split_ifs with small
  · exact ⟨fun same => ⟨small, (Option.some.inj same).symm⟩, fun same => congrArg some same.2.symm⟩
  · exact ⟨nofun, fun same => absurd same.1 small⟩

theorem FilePacket.fileSize_eq_none_iff (file : FilePacket) :
    file.fileSize = none ↔ 2 ^ 64 ≤ (file.chunks.map ChunkDescription.length).sum := by
  suffices general : ∀ (chunks : List ChunkDescription) (total : Nat), total < 2 ^ 64 →
      (chunks.foldlM (fun total chunk => checkedAdd total chunk.length) total = none ↔
        2 ^ 64 ≤ total + (chunks.map ChunkDescription.length).sum) by
    refine (general file.chunks 0 (by decide)).trans ?_
    rw [Nat.zero_add]
  intro chunks
  induction chunks with
  | nil =>
    intro total small
    exact ⟨nofun, fun large => absurd small (Nat.not_lt.mpr (by simpa using large))⟩
  | cons chunk rest ih =>
    intro total small
    rw [foldlM_cons, map_cons, sum_cons, ← Nat.add_assoc]
    cases added : checkedAdd total chunk.length with
    | none =>
      have large : 2 ^ 64 ≤ total + chunk.length := by
        unfold checkedAdd at added
        split_ifs at added with fits
        exact Nat.not_lt.mp fits
      exact ⟨fun _ => large.trans (Nat.le_add_right _ _), fun _ => rfl⟩
    | some next =>
      obtain ⟨fits, rfl⟩ := checkedAdd_eq_some_iff.mp added
      exact ih _ fits

/-- The blocks that a chunk refers to: its first block, its full blocks and the block of its tail. -/
def ChunkDescription.Refers (blockSize : Nat) : ChunkDescription → Nat → Prop
  | .unprotectedChunk _, _ => False
  | .protectedChunk length firstBlockIndex tail, index =>
    (∃ first, firstBlockIndex = some first ∧ (index = first ∨ first ≤ index ∧ index < first + length / blockSize)) ∨
      ∃ rollingHash fingerprint offset, tail = .described rollingHash fingerprint index offset

theorem bind_eq_ok_iff {first second : Except Par3Error Unit} : (first >>= fun _ => second) = .ok () ↔ first = .ok () ∧ second = .ok () := by
  cases first with
  | error e => exact ⟨nofun, fun both => nomatch both.1⟩
  | ok done => exact ⟨fun ok => ⟨rfl, ok⟩, And.right⟩

theorem checkIndex_eq_ok_iff {blockCount index : Nat} : checkIndex blockCount index = .ok () ↔ index < blockCount := by
  unfold checkIndex
  split_ifs with outside
  · exact ⟨nofun, fun inside => absurd inside (Nat.not_lt.mpr outside)⟩
  · exact ⟨fun _ => Nat.not_le.mp outside, fun _ => rfl⟩

variable {blockCount : Nat}

theorem checkFullBlocks_eq_ok_iff (width : blockCount < 2 ^ 64) (blocks first : Nat) :
    checkFullBlocks blockCount blocks first = .ok () ↔
      ∀ index, index = first ∨ first ≤ index ∧ index < first + blocks → index < blockCount := by
  have whole : (∀ index, index = first ∨ first ≤ index ∧ index < first + blocks → index < blockCount) ↔
      first < blockCount ∧ (blocks = 0 ∨ first + (blocks - 1) < blockCount) := by
    constructor
    · intro all
      have atLast := all (first + (blocks - 1))
      exact ⟨all first (.inl rfl), by omega⟩
    · rintro ⟨atFirst, atLast⟩ index range
      omega
  rw [whole, checkFullBlocks, bind_eq_ok_iff, checkIndex_eq_ok_iff]
  refine and_congr_right fun _ => ?_
  split_ifs with zero
  · exact ⟨fun _ => .inl zero, fun _ => rfl⟩
  rw [or_iff_right zero]
  cases added : checkedAdd first (blocks - 1) with
  | none =>
    refine ⟨nofun, fun inside => ?_⟩
    unfold checkedAdd at added
    split_ifs at added with fits
    exact absurd (inside.trans width) fits
  | some last =>
    obtain ⟨-, rfl⟩ := checkedAdd_eq_some_iff.mp added
    exact checkIndex_eq_ok_iff

/-- The check passes exactly the chunks whose blocks the set has. -/
theorem checkChunkIndices_eq_ok_iff (width : blockCount < 2 ^ 64) (blockSize : Nat) (chunk : ChunkDescription) :
    checkChunkIndices blockCount blockSize chunk = .ok () ↔ ∀ index, chunk.Refers blockSize index → index < blockCount := by
  cases chunk with
  | unprotectedChunk length => exact ⟨fun _ _ => nofun, fun _ => rfl⟩
  | protectedChunk length firstBlockIndex tail =>
    simp only [ChunkDescription.Refers, or_imp, forall_and]
    rw [checkChunkIndices, bind_eq_ok_iff]
    refine and_congr ?_ ?_
    · cases firstBlockIndex with
      | none => exact ⟨fun _ _ => nofun, fun _ => rfl⟩
      | some first =>
        refine (checkFullBlocks_eq_ok_iff width _ first).trans (forall_congr' fun index => ?_)
        exact ⟨fun all ⟨_, same, range⟩ => all (Option.some.inj same ▸ range), fun all range => all ⟨first, rfl, range⟩⟩
    · cases tail with
      | none => exact ⟨fun _ _ => nofun, fun _ => rfl⟩
      | «inline» bytes => exact ⟨fun _ _ => nofun, fun _ => rfl⟩
      | described rollingHash fingerprint blockIndex offset =>
        refine checkIndex_eq_ok_iff.trans ⟨?_, fun all => all blockIndex ⟨rollingHash, fingerprint, offset, rfl⟩⟩
        rintro inside index ⟨_, _, _, same⟩
        cases same
        exact inside

theorem forM_eq_ok_iff {α : Type} {check : α → Except Par3Error Unit} {items : List α} :
    items.forM check = .ok () ↔ ∀ item ∈ items, check item = .ok () := by
  induction items with
  | nil => exact ⟨fun _ => nofun, fun _ => rfl⟩
  | cons item rest ih =>
    rw [forall_mem_cons, ← ih]
    exact bind_eq_ok_iff

theorem checkBlockIndices_eq_ok_iff (width : blockCount < 2 ^ 64) (blockSize : Nat) (file : Par3File) :
    checkBlockIndices blockCount blockSize file = .ok () ↔
      ∀ chunk ∈ file.packet.chunks, ∀ index, chunk.Refers blockSize index → index < blockCount :=
  forM_eq_ok_iff.trans (forall₂_congr fun chunk _ => checkChunkIndices_eq_ok_iff width _ chunk)

namespace TreePackets
variable (packets : TreePackets) {hash : Fingerprint} {children up chain : List Fingerprint}

/-- A File packet is a leaf of the graph, a Directory packet a branch. -/
def kind (hash : Fingerprint) : Kind Fingerprint :=
  match packets.files.lookup hash with
  | some _ => .leaf
  | none =>
    match packets.directories.lookup hash with
    | some directory => .branch directory.children
    | none => .missing

def nameOf (hash : Fingerprint) : List UInt8 := (packets.name hash).getD []

/-- The path of a chain, its newest packet last. -/
def pathOf : List Fingerprint → List UInt8
  | [] => []
  | hash :: up => joinPath (pathOf up) (packets.nameOf hash)

/-- All children are there and no two have the same name. -/
def Sane (children : List Fingerprint) : Prop :=
  (∀ child ∈ children, packets.kind child ≠ .missing) ∧ (children.map packets.nameOf).Nodup

/-- The entry of a chain that ends at a File packet. -/
def fileAt : List Fingerprint → Option Par3File
  | [] => none
  | hash :: up =>
    match packets.files.lookup hash with
    | none => none
    | some file => file.fileSize.map fun size => ⟨packets.pathOf (hash :: up), hash, size, file⟩

/-- The entry of a chain that ends at a Directory packet. -/
def directoryAt : List Fingerprint → Option Par3Directory
  | [] => none
  | hash :: up =>
    match packets.files.lookup hash with
    | some _ => none
    | none => (packets.directories.lookup hash).map fun directory => ⟨packets.pathOf (hash :: up), hash, directory⟩

variable {packets}

theorem kind_file (found : packets.files.lookup hash = some file) :
    packets.kind hash = .leaf ∧ packets.nameOf hash = file.name := by
  constructor
  · rw [kind, found]
  · rw [nameOf, name, found]
    rfl

theorem kind_directory (noFile : packets.files.lookup hash = none)
    (found : packets.directories.lookup hash = some directory) :
    packets.kind hash = .branch directory.children ∧ packets.nameOf hash = directory.name := by
  constructor
  · rw [kind, noFile, found]
  · rw [nameOf, name, noFile, found]
    rfl

/-- A chain that ends at a file of known size has one entry, a file. -/
theorem entry_file {size : Nat} (up : List Fingerprint) (found : packets.files.lookup hash = some file) (sized : file.fileSize = some size) :
    packets.fileAt (hash :: up) = some ⟨packets.pathOf (hash :: up), hash, size, file⟩ ∧ packets.directoryAt (hash :: up) = none := by
  rw [fileAt, directoryAt, found]
  dsimp only
  rw [sized]
  exact ⟨rfl, rfl⟩

theorem fileAt_eq_some {entry : Par3File} (listed : packets.fileAt chain = some entry) :
    ∃ hash up, chain = hash :: up ∧ packets.files.lookup hash = some entry.packet := by
  cases chain with
  | nil => cases listed
  | cons hash up =>
    refine ⟨hash, up, rfl, ?_⟩
    rw [fileAt] at listed
    cases found : packets.files.lookup hash with
    | none =>
      rw [found] at listed
      cases listed
    | some file =>
      rw [found] at listed
      obtain ⟨size, -, rfl⟩ := Option.map_eq_some_iff.mp listed
      rfl

/-- A chain that ends at a directory has one entry, a directory. -/
theorem entry_directory (up : List Fingerprint) (noFile : packets.files.lookup hash = none)
    (found : packets.directories.lookup hash = some directory) :
    packets.fileAt (hash :: up) = none ∧ packets.directoryAt (hash :: up) = some ⟨packets.pathOf (hash :: up), hash, directory⟩ := by
  rw [fileAt, directoryAt, noFile, found]
  exact ⟨rfl, rfl⟩

theorem kind_missing (noFile : packets.files.lookup hash = none) (noDirectory : packets.directories.lookup hash = none) :
    packets.kind hash = .missing := by
  rw [kind, noFile, noDirectory]

theorem name_eq_none_iff : packets.name hash = none ↔ packets.kind hash = .missing := by
  unfold name kind
  cases packets.files.lookup hash with
  | some file => exact ⟨nofun, nofun⟩
  | none =>
    cases packets.directories.lookup hash with
    | some directory => exact ⟨nofun, nofun⟩
    | none => exact ⟨fun _ => rfl, fun _ => rfl⟩

/-- A packet is absent, a file or a directory, and this decides what is listed for a chain that ends at it. -/
theorem lookup_cases (packets : TreePackets) (hash : Fingerprint) :
    (packets.files.lookup hash = none ∧ packets.directories.lookup hash = none) ∨
      (∃ file, packets.files.lookup hash = some file) ∨
      ∃ directory, packets.files.lookup hash = none ∧ packets.directories.lookup hash = some directory := by
  cases packets.files.lookup hash with
  | some file => exact .inr (.inl ⟨file, rfl⟩)
  | none =>
    cases packets.directories.lookup hash with
    | none => exact .inl ⟨rfl, rfl⟩
    | some directory => exact .inr (.inr ⟨directory, rfl, rfl⟩)

theorem kind_eq_leaf (leaf : packets.kind hash = .leaf) : ∃ file, packets.files.lookup hash = some file := by
  rcases packets.lookup_cases hash with ⟨noFile, noDirectory⟩ | found | ⟨directory, noFile, found⟩
  · exact absurd ((kind_missing noFile noDirectory).symm.trans leaf) nofun
  · exact found
  · exact absurd ((kind_directory noFile found).1.symm.trans leaf) nofun

theorem kind_eq_branch {sub : List Fingerprint} (branch : packets.kind hash = .branch sub) :
    ∃ directory, packets.files.lookup hash = none ∧ packets.directories.lookup hash = some directory ∧ directory.children = sub := by
  rcases packets.lookup_cases hash with ⟨noFile, noDirectory⟩ | ⟨file, found⟩ | ⟨directory, noFile, found⟩
  · exact absurd ((kind_missing noFile noDirectory).symm.trans branch) nofun
  · exact absurd ((kind_file found).1.symm.trans branch) nofun
  · exact ⟨directory, noFile, found, Kind.branch.inj ((kind_directory noFile found).1.symm.trans branch)⟩

theorem safe_nameOf (present : packets.kind hash ≠ .missing) : SafeComponent (packets.nameOf hash) := by
  rcases packets.lookup_cases hash with ⟨noFile, noDirectory⟩ | ⟨file, found⟩ | ⟨directory, noFile, found⟩
  · exact absurd (kind_missing noFile noDirectory) present
  · exact (kind_file found).2 ▸ checkName_eq_ok (packets.fileNames hash file found)
  · exact (kind_directory noFile found).2 ▸ checkName_eq_ok (packets.directoryNames hash _ found)

/-! ### Paths -/

theorem joinPath_ne_nil {parent name : List UInt8} (nonempty : name ≠ []) : joinPath parent name ≠ [] := by
  unfold joinPath
  split_ifs
  · exact nonempty
  · exact fun empty => absurd (append_eq_nil_iff.mp empty).2 nofun

theorem intercalate_concat {α : Type} {separator last : List α} {parts : List (List α)} (some : parts ≠ []) :
    separator.intercalate (parts ++ [last]) = separator.intercalate parts ++ separator ++ last := by
  induction parts with
  | nil => exact absurd rfl some
  | cons part rest ih =>
    cases rest with
    | nil => simp [intercalate_cons_cons]
    | cons next rest =>
      have step := ih nofun
      rw [cons_append] at step ⊢
      rw [cons_append, intercalate_cons_cons, intercalate_cons_cons, step]
      simp only [append_assoc]

theorem pathOf_eq_intercalate (present : ∀ hash ∈ chain, packets.kind hash ≠ .missing) :
    packets.pathOf chain = [47].intercalate (chain.map packets.nameOf).reverse := by
  induction chain with
  | nil => rfl
  | cons hash up ih =>
    have above := ih fun other member => present other (mem_cons_of_mem hash member)
    rw [pathOf, map_cons, reverse_cons]
    cases up with
    | nil => simp [pathOf, joinPath]
    | cons parent rest =>
      have named := (safe_nameOf (present parent (by simp))).nonempty
      have nonempty : packets.pathOf (parent :: rest) ≠ [] := joinPath_ne_nil named
      rw [joinPath, if_neg nonempty, above, intercalate_concat (by simp), append_assoc]
      rfl

/-- The components of a chain's path are the names of its packets. -/
theorem splitOn_pathOf (present : ∀ hash ∈ chain, packets.kind hash ≠ .missing) (nonempty : chain ≠ []) :
    (packets.pathOf chain).splitOn 47 = (chain.map packets.nameOf).reverse := by
  rw [pathOf_eq_intercalate present]
  refine splitOn_intercalate 47 (fun part member => ?_) (by simpa using nonempty)
  obtain ⟨hash, inside, rfl⟩ := mem_map.mp (mem_reverse.mp member)
  exact (safe_nameOf (present hash inside)).slash

end TreePackets

/-! ### Names in one directory -/

namespace TreeWalk
variable (walk : TreeWalk)

theorem checkNamesFrom_eq_ok_iff (directory : List UInt8) (names : List (List UInt8)) (children : List Fingerprint) :
    walk.checkNamesFrom directory names children = .ok () ↔
      walk.packets.Sane children ∧ ∀ child ∈ children, walk.packets.nameOf child ∉ names := by
  induction children generalizing names with
  | nil => exact ⟨fun _ => ⟨⟨nofun, .nil⟩, nofun⟩, fun _ => rfl⟩
  | cons child rest ih =>
    rw [checkNamesFrom]
    cases named : walk.packets.name child with
    | none =>
      have missing := TreePackets.name_eq_none_iff.mp named
      exact ⟨nofun, fun ⟨sane, _⟩ => absurd missing (sane.1 child mem_cons_self)⟩
    | some name =>
      have nameOf : walk.packets.nameOf child = name := by rw [TreePackets.nameOf, named, Option.getD_some]
      have present : walk.packets.kind child ≠ .missing := fun missing => absurd (named.symm.trans (TreePackets.name_eq_none_iff.mpr missing)) nofun
      dsimp only
      split_ifs with taken
      · exact ⟨nofun, fun ⟨_, fresh⟩ => absurd (nameOf ▸ taken) (fresh child mem_cons_self)⟩
      · rw [ih]
        simp only [TreePackets.Sane, forall_mem_cons, map_cons, nodup_cons, mem_map, nameOf]
        constructor
        · rintro ⟨⟨others, nodup⟩, fresh⟩
          refine ⟨⟨⟨present, others⟩, ?_, nodup⟩, taken, fun other member old => fresh other member (mem_cons_of_mem name old)⟩
          rintro ⟨other, member, same⟩
          exact fresh other member (same ▸ mem_cons_self)
        · rintro ⟨⟨⟨-, others⟩, unique, nodup⟩, -, fresh⟩
          refine ⟨⟨others, nodup⟩, fun other member old => ?_⟩
          rcases mem_cons.mp old with same | old
          · exact unique ⟨other, member, same⟩
          · exact fresh other member old

theorem checkNames_eq_ok_iff (children : List Fingerprint) (directory : List UInt8) :
    walk.checkNames children directory = .ok () ↔ walk.packets.Sane children := by
  refine (walk.checkNamesFrom_eq_ok_iff _ [] children).trans ?_
  exact ⟨And.left, fun sane => ⟨sane, fun _ _ => not_mem_nil⟩⟩

end TreeWalk
end Rarpar.Par3

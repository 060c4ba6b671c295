import Rarpar.Data.Table
import Rarpar.Par3.Scan

namespace Rarpar.Par3

/-! The walk from a Root packet's children to paths, from `set.rs`. -/

structure SetLimits where
  maxEntries : Nat
  maxDepth : Nat
  maxPathBytes : Nat

def SetLimits.default : SetLimits := ⟨1000000, 256, 64 * 2 ^ 20⟩

instance : LE SetLimits :=
  ⟨fun limits larger => limits.maxEntries ≤ larger.maxEntries ∧ limits.maxDepth ≤ larger.maxDepth ∧
    limits.maxPathBytes ≤ larger.maxPathBytes⟩

/-! ### Files and directories -/

/-- `u64::checked_add`. -/
def checkedAdd (a b : Nat) : Option Nat := if a + b < 2 ^ 64 then some (a + b) else none

/-- The sum of the chunk lengths, or none if it overflows. -/
def FilePacket.fileSize (file : FilePacket) : Option Nat :=
  file.chunks.foldlM (fun total chunk => checkedAdd total chunk.length) 0

structure Par3File where
  path : List UInt8
  packetHash : Fingerprint
  size : Nat
  packet : FilePacket
deriving DecidableEq

structure Par3Directory where
  path : List UInt8
  packetHash : Fingerprint
  packet : DirectoryPacket
deriving DecidableEq

/-- The File and Directory packets of a set, by hash. Their names were checked when they were parsed. -/
structure TreePackets where
  files : Table Fingerprint FilePacket
  directories : Table Fingerprint DirectoryPacket
  fileNames : ∀ hash file, files.lookup hash = some file → checkName file.name = .ok ()
  directoryNames : ∀ hash directory, directories.lookup hash = some directory → checkName directory.name = .ok ()

/-- The name of the packet with this hash, a File packet before a Directory packet. -/
def TreePackets.name (packets : TreePackets) (hash : Fingerprint) : Option (List UInt8) :=
  match packets.files.lookup hash with
  | some file => some file.name
  | none => (packets.directories.lookup hash).map (·.name)

def joinPath (parent name : List UInt8) : List UInt8 := if parent = [] then name else parent ++ 47 :: name

/-! ### Block indices -/

/-- Refuse a block that the set does not have. -/
def checkIndex (blockCount index : Nat) : Except Par3Error Unit :=
  if blockCount ≤ index then .error (.blockIndexOutOfRange index blockCount) else .ok ()

/-- Refuse a first block, or a last full block, that the set does not have. -/
def checkFullBlocks (blockCount blocks index : Nat) : Except Par3Error Unit := do
  checkIndex blockCount index
  if blocks = 0 then return ()
  match checkedAdd index (blocks - 1) with
  | none => .error (.blockIndexOutOfRange (2 ^ 64 - 1) blockCount)
  | some last => checkIndex blockCount last

def checkTailIndex (blockCount : Nat) : ChunkTail → Except Par3Error Unit
  | .described _ _ blockIndex _ => checkIndex blockCount blockIndex
  | _ => .ok ()

/-- One round of `check_block_indices`. A division by the block size zero gives no full blocks. -/
def checkChunkIndices (blockCount blockSize : Nat) : ChunkDescription → Except Par3Error Unit
  | .unprotectedChunk _ => .ok ()
  | .protectedChunk length firstBlockIndex tail => do
    firstBlockIndex.elim (.ok ()) (checkFullBlocks blockCount (length / blockSize))
    checkTailIndex blockCount tail

def checkBlockIndices (blockCount blockSize : Nat) (file : Par3File) : Except Par3Error Unit :=
  file.packet.chunks.forM (checkChunkIndices blockCount blockSize)

/-! ### The walk -/

/-- What the walk reads: the packets, the limits, how a name is shown in a message, and which charges for an entry are
granted, by the number of charges before it. -/
structure TreeWalk where
  inputSetId : InputSetId
  limits : SetLimits
  packets : TreePackets
  quote : List UInt8 → String
  charge : Nat → Bool

namespace TreeWalk

/-- One directory on the stack, with the children that are still to come. -/
structure Frame where
  hash : Option Fingerprint
  path : List UInt8
  children : List Fingerprint

/-- The entries so far, the bytes of their paths, the number of charges, and the loop's stack (its top first) with the
directories on it. -/
structure State where
  files : List Par3File
  directories : List Par3Directory
  pathBytes : Nat
  charges : Nat
  stack : List Frame
  onPath : List Fingerprint

variable (walk : TreeWalk)

def chargePath (path : List UInt8) (state : State) : Except Par3Error State :=
  let pathBytes := saturatingAdd state.pathBytes path.length
  if walk.limits.maxPathBytes < pathBytes then
    .error (.scanLimitExceeded
      s!"input set {hexBytes walk.inputSetId.toList} resolves to more than {walk.limits.maxPathBytes} bytes of paths")
  else .ok { state with pathBytes }

/-- The call of `ExpansionCharge::charge`. -/
def chargeEntry (state : State) : Except Par3Error State :=
  if walk.charge state.charges then .ok { state with charges := state.charges + 1 }
  else .error (.scanLimitExceeded "resolving this input set needs more memory than the budget allows")

def checkDepth (state : State) : Except Par3Error Unit :=
  if walk.limits.maxDepth < state.stack.length then
    .error (.scanLimitExceeded
      s!"input set {hexBytes walk.inputSetId.toList} nests deeper than {walk.limits.maxDepth} directories")
  else .ok ()

/-- The loop of `check_names`, after these names. -/
def checkNamesFrom (directory : List UInt8) : List (List UInt8) → List Fingerprint → Except Par3Error Unit
  | _, [] => .ok ()
  | names, child :: rest =>
    match walk.packets.name child with
    | none => .error (.missingChildPacket walk.inputSetId (hexBytes child.toList))
    | some name =>
      if name ∈ names then .error (.duplicateName name directory) else checkNamesFrom directory (name :: names) rest

def checkNames (children : List Fingerprint) (directory : List UInt8) : Except Par3Error Unit :=
  walk.checkNamesFrom directory [] children

def enterFile (child : Fingerprint) (file : FilePacket) (parent : List UInt8) (state : State) : Except Par3Error State :=
  match file.fileSize with
  | none => .error (.malformedPacket "File" s!"chunk lengths of {walk.quote file.name} overflow a u64")
  | some size => do
    let path := joinPath parent file.name
    let state ← walk.chargePath path state
    let state ← walk.chargeEntry state
    return { state with files := state.files ++ [⟨path, child, size, file⟩] }

def enterDirectory (child : Fingerprint) (directory : DirectoryPacket) (parent : List UInt8) (state : State) :
    Except Par3Error State := do
  let path := joinPath parent directory.name
  let state ← walk.chargePath path state
  walk.checkDepth state
  walk.checkNames directory.children path
  let state ← walk.chargeEntry state
  return { state with
    directories := state.directories ++ [⟨path, child, directory⟩]
    stack := ⟨some child, path, directory.children⟩ :: state.stack }

def enter (child : Fingerprint) (parent : List UInt8) (state : State) : Except Par3Error State :=
  match walk.packets.files.lookup child with
  | some file => walk.enterFile child file parent state
  | none =>
    match walk.packets.directories.lookup child with
    | none => .error (.missingChildPacket walk.inputSetId (hexBytes child.toList))
    | some directory =>
      if child ∈ state.onPath then .error (.cyclicDirectoryTree walk.inputSetId)
      else walk.enterDirectory child directory parent { state with onPath := child :: state.onPath }

/-- One round of the loop, none once the stack is empty. -/
def step (state : State) : Except Par3Error (Option State) :=
  match state.stack with
  | [] => .ok none
  | ⟨hash, _, []⟩ :: below => .ok (some { state with stack := below, onPath := hash.elim state.onPath (state.onPath.erase ·) })
  | ⟨hash, path, child :: rest⟩ :: below =>
    if walk.limits.maxEntries ≤ state.files.length + state.directories.length then
      .error (.scanLimitExceeded
        s!"input set {hexBytes walk.inputSetId.toList} resolves to more than {walk.limits.maxEntries} entries")
    else (walk.enter child path { state with stack := ⟨hash, path, rest⟩ :: below }).map some

/-- The loop, none if the fuel runs out. -/
def loop : Nat → State → Option (Except Par3Error State)
  | 0, _ => none
  | fuel + 1, state =>
    match walk.step state with
    | .error e => some (.error e)
    | .ok none => some (.ok state)
    | .ok (some next) => loop fuel next

def initial (rootChildren : List Fingerprint) : State := ⟨[], [], 0, 0, [⟨none, [], rootChildren⟩], []⟩

/-- `TreeWalk::run`. A round either leaves a frame or adds an entry, with at most one frame. -/
def run (rootChildren : List Fingerprint) : Option (Except Par3Error State) :=
  match walk.checkNames rootChildren [] with
  | .error e => some (.error e)
  | .ok () => walk.loop (2 * walk.limits.maxEntries + 2) (initial rootChildren)

/-- The walk as `Par3Set::build` makes it, with the check of every resolved file's chunks. -/
def resolve (root : RootPacket) (blockSize : Nat) : Option (Except Par3Error (List Par3File × List Par3Directory)) :=
  match walk.run root.children with
  | none => none
  | some (.error e) => some (.error e)
  | some (.ok state) =>
    match state.files.forM (checkBlockIndices root.lowestUnusedBlockIndex blockSize) with
    | .error e => some (.error e)
    | .ok () => some (.ok (state.files, state.directories))

end TreeWalk
end Rarpar.Par3

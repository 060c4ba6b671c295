import Rarpar.Par3.TreeChains

namespace Rarpar.Par3.TreeWalk
open List Nat TreePackets

open Chains (Below Expands Kind)

/-! What the rounds of the walk do to its stack. -/

variable (walk : TreeWalk) {state next final : TreeWalk.State} {child hash : Fingerprint} {path parent : List UInt8}
  {hash? : Option Fingerprint} {below stack : List Frame} {children rest root : List Fingerprint} {chains later : List (List Fingerprint)}

/-! ### Entries -/

/-- The path is within the limit and the charge for the entry is granted. -/
def Grants (state : State) (path : List UInt8) : Prop :=
  saturatingAdd state.pathBytes path.length ≤ walk.limits.maxPathBytes ∧ walk.charge state.charges

/-- The state once an entry is paid for. -/
def State.paid (state : State) (path : List UInt8) : State :=
  { state with pathBytes := saturatingAdd state.pathBytes path.length, charges := state.charges + 1 }

theorem chargePath_eq_ok_iff : walk.chargePath path state = .ok next ↔
    saturatingAdd state.pathBytes path.length ≤ walk.limits.maxPathBytes ∧
      next = { state with pathBytes := saturatingAdd state.pathBytes path.length } := by
  unfold chargePath
  dsimp only
  split_ifs with beyond
  · exact ⟨nofun, fun both => absurd both.1 (not_le.mpr beyond)⟩
  · exact ⟨fun same => ⟨not_lt.mp beyond, (Except.ok.inj same).symm⟩, fun both => congrArg _ both.2.symm⟩

theorem chargeEntry_eq_ok_iff : walk.chargeEntry state = .ok next ↔
    walk.charge state.charges ∧ next = { state with charges := state.charges + 1 } := by
  unfold chargeEntry
  split_ifs with granted
  · exact ⟨fun same => ⟨granted, (Except.ok.inj same).symm⟩, fun both => congrArg _ both.2.symm⟩
  · exact ⟨nofun, fun both => absurd both.1 granted⟩

theorem checkDepth_eq_ok_iff : walk.checkDepth state = .ok () ↔ state.stack.length ≤ walk.limits.maxDepth := by
  unfold checkDepth
  split_ifs with deep
  · exact ⟨nofun, fun fits => absurd fits (not_le.mpr deep)⟩
  · exact ⟨fun _ => not_lt.mp deep, fun _ => rfl⟩

theorem bind_ok_iff {α β : Type} {first : Except Par3Error α} {second : α → Except Par3Error β} {b : β} :
    (first >>= second) = .ok b ↔ ∃ a, first = .ok a ∧ second a = .ok b := by
  cases first with
  | error e => exact ⟨nofun, fun ⟨_, ok, _⟩ => nomatch ok⟩
  | ok a => exact ⟨fun ok => ⟨a, rfl, ok⟩, fun ⟨_, same, ok⟩ => Except.ok.inj same ▸ ok⟩

theorem enterFile_eq_ok_iff {file : FilePacket} : walk.enterFile child file parent state = .ok next ↔
    ∃ size, file.fileSize = some size ∧ walk.Grants state (joinPath parent file.name) ∧
      next = { state.paid (joinPath parent file.name) with
        files := state.files ++ [⟨joinPath parent file.name, child, size, file⟩] } := by
  unfold enterFile
  cases file.fileSize with
  | none => exact ⟨nofun, fun ⟨_, sized, _⟩ => nomatch sized⟩
  | some size =>
    simp only [bind_ok_iff, chargePath_eq_ok_iff, chargeEntry_eq_ok_iff]
    constructor
    · rintro ⟨_, ⟨fits, rfl⟩, _, ⟨granted, rfl⟩, same⟩
      exact ⟨size, rfl, ⟨fits, granted⟩, (Except.ok.inj same).symm⟩
    · rintro ⟨_, same, ⟨fits, granted⟩, rfl⟩
      cases same
      exact ⟨_, ⟨fits, rfl⟩, _, ⟨granted, rfl⟩, rfl⟩

theorem enterDirectory_eq_ok_iff {directory : DirectoryPacket} : walk.enterDirectory child directory parent state = .ok next ↔
    walk.Grants state (joinPath parent directory.name) ∧ state.stack.length ≤ walk.limits.maxDepth ∧
      walk.packets.Sane directory.children ∧
      next = { state.paid (joinPath parent directory.name) with
        directories := state.directories ++ [⟨joinPath parent directory.name, child, directory⟩]
        stack := ⟨some child, joinPath parent directory.name, directory.children⟩ :: state.stack } := by
  unfold enterDirectory
  simp only [bind_ok_iff, chargePath_eq_ok_iff, chargeEntry_eq_ok_iff]
  constructor
  · rintro ⟨_, ⟨fits, rfl⟩, _, depth, _, names, _, ⟨granted, rfl⟩, same⟩
    exact ⟨⟨fits, granted⟩, walk.checkDepth_eq_ok_iff.mp depth, (walk.checkNames_eq_ok_iff _ _).mp names, (Except.ok.inj same).symm⟩
  · rintro ⟨⟨fits, granted⟩, depth, names, rfl⟩
    exact ⟨_, ⟨fits, rfl⟩, (), walk.checkDepth_eq_ok_iff.mpr depth, (), (walk.checkNames_eq_ok_iff _ _).mpr names, _,
      ⟨granted, rfl⟩, rfl⟩

/-! ### The stack -/

/-- The directories on a stack. -/
def upOf (stack : List Frame) : List Fingerprint := stack.filterMap Frame.hash

/-- Every frame stands at a chain from the root, with its path and with children of its directory to come. -/
inductive Stood (packets : TreePackets) (root : List Fingerprint) : List Frame → Prop
  | nil : Stood packets root []
  | bottom {children : List Fingerprint} (among : ∀ child ∈ children, child ∈ root) : Stood packets root [⟨none, [], children⟩]
  | push {hash : Fingerprint} {children sub : List Fingerprint} {below : List Frame} (under : Stood packets root below)
      (chain : Below packets.kind [] root (hash :: upOf below)) (branch : packets.kind hash = .branch sub)
      (among : ∀ child ∈ children, child ∈ sub) :
      Stood packets root (⟨some hash, packets.pathOf (hash :: upOf below), children⟩ :: below)

/-- The chains that are still to be listed, those of the top frame first. -/
inductive Pending (packets : TreePackets) : List Frame → List (List Fingerprint) → Prop
  | nil : Pending packets [] []
  | cons {frame : Frame} {below : List Frame} {chains later : List (List Fingerprint)}
      (here : Expands packets.kind packets.Sane (upOf (frame :: below)) frame.children chains) (rest : Pending packets below later) :
      Pending packets (frame :: below) (chains ++ later)

structure Standing (packets : TreePackets) (root : List Fingerprint) (state : State) : Prop where
  stood : Stood packets root state.stack
  onPath : state.onPath = upOf state.stack

variable {walk} {packets : TreePackets}

theorem Stood.path_eq {frame : Frame} (stood : Stood packets root (frame :: below)) : frame.path = packets.pathOf (upOf (frame :: below)) := by
  cases stood with
  | bottom => rfl
  | push => rfl

section
variable (stood : Stood packets root (⟨hash?, path, child :: rest⟩ :: below))
include stood

theorem Stood.chain : Below packets.kind [] root (child :: upOf (⟨hash?, path, child :: rest⟩ :: below)) := by
  cases stood with
  | bottom among => exact .top (among child mem_cons_self)
  | push under chain branch among => exact .down chain branch (among child mem_cons_self)

/-- The path of a frame's next child is that of its chain. -/
theorem Stood.joinPath_eq :
    joinPath path (packets.nameOf child) = packets.pathOf (child :: upOf (⟨hash?, path, child :: rest⟩ :: below)) :=
  congrArg (joinPath · (packets.nameOf child)) stood.path_eq

/-- A frame whose first child is taken stands where it stood. -/
theorem Stood.advance : Stood packets root (⟨hash?, path, rest⟩ :: below) := by
  cases stood with
  | bottom among => exact .bottom fun other member => among other (mem_cons_of_mem child member)
  | push under chain branch among => exact .push under chain branch fun other member => among other (mem_cons_of_mem child member)

end

theorem Stood.pop {frame : Frame} (stood : Stood packets root (frame :: below)) : Stood packets root below := by
  cases stood with
  | bottom => exact .nil
  | push under => exact under

theorem Stood.length_le (stood : Stood packets root stack) : stack.length ≤ (upOf stack).length + 1 := by
  induction stood with
  | nil => exact zero_le _
  | bottom => exact le_refl 1
  | push under chain branch among ih => exact succ_le_succ ih

/-! ### Rounds -/

/-- What a round that succeeds does. -/
inductive Round (walk : TreeWalk) (state : State) : State → Prop
  | leave {hash? : Option Fingerprint} {path : List UInt8} {below : List Frame} (top : state.stack = ⟨hash?, path, []⟩ :: below) :
      Round walk state { state with stack := below, onPath := hash?.elim state.onPath (state.onPath.erase ·) }
  | file {hash? : Option Fingerprint} {path : List UInt8} {child : Fingerprint} {rest : List Fingerprint} {below : List Frame}
      {file : FilePacket} {size : Nat} (top : state.stack = ⟨hash?, path, child :: rest⟩ :: below)
      (room : state.files.length + state.directories.length < walk.limits.maxEntries)
      (found : walk.packets.files.lookup child = some file) (sized : file.fileSize = some size)
      (grants : walk.Grants state (joinPath path file.name)) :
      Round walk state { state.paid (joinPath path file.name) with
        files := state.files ++ [⟨joinPath path file.name, child, size, file⟩]
        stack := ⟨hash?, path, rest⟩ :: below }
  | directory {hash? : Option Fingerprint} {path : List UInt8} {child : Fingerprint} {rest : List Fingerprint}
      {below : List Frame} {directory : DirectoryPacket} (top : state.stack = ⟨hash?, path, child :: rest⟩ :: below)
      (room : state.files.length + state.directories.length < walk.limits.maxEntries)
      (noFile : walk.packets.files.lookup child = none) (found : walk.packets.directories.lookup child = some directory)
      (fresh : child ∉ state.onPath) (grants : walk.Grants state (joinPath path directory.name))
      (depth : (⟨hash?, path, rest⟩ :: below : List Frame).length ≤ walk.limits.maxDepth)
      (sane : walk.packets.Sane directory.children) :
      Round walk state { state.paid (joinPath path directory.name) with
        directories := state.directories ++ [⟨joinPath path directory.name, child, directory⟩]
        stack := ⟨some child, joinPath path directory.name, directory.children⟩ :: ⟨hash?, path, rest⟩ :: below
        onPath := child :: state.onPath }

theorem enter_eq_ok_iff : walk.enter child parent state = .ok next ↔
    (∃ file, walk.packets.files.lookup child = some file ∧ walk.enterFile child file parent state = .ok next) ∨
      ∃ directory, walk.packets.files.lookup child = none ∧ walk.packets.directories.lookup child = some directory ∧
        child ∉ state.onPath ∧
        walk.enterDirectory child directory parent { state with onPath := child :: state.onPath } = .ok next := by
  unfold enter
  cases walk.packets.files.lookup child with
  | some file => exact ⟨fun entered => .inl ⟨file, rfl, entered⟩, by rintro (⟨_, same, entered⟩ | ⟨_, none, _⟩) <;> simp_all⟩
  | none =>
    grind

theorem step_leave (top : state.stack = ⟨hash?, path, []⟩ :: below) : walk.step state =
    .ok (some { state with stack := below, onPath := hash?.elim state.onPath (state.onPath.erase ·) }) := by
  rw [step, top]

theorem step_child (top : state.stack = ⟨hash?, path, child :: rest⟩ :: below) : walk.step state = .ok (some next) ↔
    state.files.length + state.directories.length < walk.limits.maxEntries ∧
      walk.enter child path { state with stack := ⟨hash?, path, rest⟩ :: below } = .ok next := by
  rw [step, top]
  dsimp only
  split_ifs with full
  · exact ⟨nofun, fun both => absurd both.1 (not_lt.mpr full)⟩
  · cases walk.enter child path { state with stack := ⟨hash?, path, rest⟩ :: below } with
    | error e => exact ⟨nofun, fun both => nomatch both.2⟩
    | ok entered =>
      refine ⟨fun same => ⟨not_le.mp full, ?_⟩, fun both => ?_⟩
      · exact congrArg _ (Option.some.inj (Except.ok.inj same))
      · exact congrArg (fun entered => Except.ok (some entered)) (Except.ok.inj both.2)

theorem step_eq_some_iff : walk.step state = .ok (some next) ↔ Round walk state next := by
  constructor
  · intro stepped
    match top : state.stack with
    | [] =>
      rw [step, top] at stepped
      cases stepped
    | ⟨hash?, path, []⟩ :: below =>
      rw [step_leave top] at stepped
      cases stepped
      exact .leave top
    | ⟨hash?, path, child :: rest⟩ :: below =>
      obtain ⟨room, entered⟩ := (step_child top).mp stepped
      rcases enter_eq_ok_iff.mp entered with ⟨file, found, entered⟩ | ⟨directory, noFile, found, fresh, entered⟩
      · obtain ⟨size, sized, grants, rfl⟩ := walk.enterFile_eq_ok_iff.mp entered
        exact .file top room found sized grants
      · obtain ⟨grants, depth, sane, rfl⟩ := walk.enterDirectory_eq_ok_iff.mp entered
        exact .directory top room noFile found fresh grants depth sane
  · rintro (top | ⟨top, room, found, sized, grants⟩ | ⟨top, room, noFile, found, fresh, grants, depth, sane⟩)
    · exact step_leave top
    · refine (step_child top).mpr ⟨room, enter_eq_ok_iff.mpr (.inl ⟨_, found, ?_⟩)⟩
      exact walk.enterFile_eq_ok_iff.mpr ⟨_, sized, grants, rfl⟩
    · refine (step_child top).mpr ⟨room, enter_eq_ok_iff.mpr (.inr ⟨_, noFile, found, fresh, ?_⟩)⟩
      exact walk.enterDirectory_eq_ok_iff.mpr ⟨grants, depth, sane, rfl⟩

theorem step_eq_none_iff : walk.step state = .ok none ↔ state.stack = [] := by
  match top : state.stack with
  | [] =>
    rw [step, top]
    exact ⟨fun _ => rfl, fun _ => rfl⟩
  | ⟨hash?, path, []⟩ :: below =>
    rw [step_leave top]
    exact ⟨nofun, nofun⟩
  | ⟨hash?, path, child :: rest⟩ :: below =>
    rw [step, top]
    dsimp only
    split_ifs
    · exact ⟨nofun, nofun⟩
    · cases walk.enter child path { state with stack := ⟨hash?, path, rest⟩ :: below } with
      | error e => exact ⟨nofun, nofun⟩
      | ok entered => exact ⟨nofun, nofun⟩

/-! ### One round -/

theorem Standing.round (standing : Standing walk.packets root state) (round : Round walk state next) :
    Standing walk.packets root next := by
  obtain ⟨stood, onPath⟩ := standing
  cases round with
  | leave top =>
    rw [top] at stood onPath
    refine ⟨stood.pop, ?_⟩
    cases stood with
    | bottom => exact onPath
    | push => 
      rw [onPath]
      exact erase_cons_head ..
  | file top room found sized grants =>
    rw [top] at stood onPath
    exact ⟨stood.advance, onPath⟩
  | directory top room noFile found fresh grants depth sane =>
    rw [top] at stood onPath
    obtain ⟨branch, named⟩ := kind_directory noFile found
    refine ⟨?_, congrArg _ onPath⟩
    rw [← named, stood.joinPath_eq]
    exact .push stood.advance stood.chain branch fun _ member => member

/-- The entries of the chains, in their order. -/
structure Lists (packets : TreePackets) (chains : List (List Fingerprint)) (state final : State) : Prop where
  files : final.files = state.files ++ chains.filterMap packets.fileAt
  directories : final.directories = state.directories ++ chains.filterMap packets.directoryAt

/-- The size of every file of a chain is known. -/
def Sized (packets : TreePackets) (chains : List (List Fingerprint)) : Prop :=
  ∀ hash up, hash :: up ∈ chains → ∀ file, packets.files.lookup hash = some file → file.fileSize ≠ none

theorem Sized.cons {up : List Fingerprint} (others : Sized packets chains)
    (here : ∀ file, packets.files.lookup hash = some file → file.fileSize ≠ none) : Sized packets ((hash :: up) :: chains) := by
  intro hash' up' member
  rcases mem_cons.mp member with same | member
  · grind
  · exact others hash' up' member

/-- What is listed from the state after a round is listed from the state before it. -/
theorem Round.lists (round : Round walk state next) (standing : Standing walk.packets root state)
    (pending : Pending walk.packets next.stack chains) (sized : Sized walk.packets chains) (lists : Lists walk.packets chains next final) :
    ∃ chains', Pending walk.packets state.stack chains' ∧ Sized walk.packets chains' ∧ Lists walk.packets chains' state final := by
  obtain ⟨stood, onPath⟩ := standing
  cases round with
  | leave top =>
    refine ⟨chains, ?_, sized, lists.files, lists.directories⟩
    rw [top]
    exact @Pending.cons _ ⟨_, _, []⟩ _ _ _ .nil pending
  | @file hash? path child rest below file size top room found here grants =>
    rw [top] at stood ⊢
    obtain ⟨leaf, named⟩ := kind_file found
    obtain ⟨asFile, notDirectory⟩ := entry_file (upOf (⟨hash?, path, child :: rest⟩ :: below)) found here
    obtain ⟨files, directories⟩ := lists
    rw [← stood.joinPath_eq, named] at asFile
    cases pending with
    | cons expands others =>
      refine ⟨_, .cons (.leaf leaf expands) others, sized.cons fun file' found' => ?_, ?_, ?_⟩
      · grind
      · grind
      · rw [directories, cons_append, filterMap_cons_none notDirectory]
        rfl
  | @directory hash? path child rest below _ top room noFile found fresh grants depth sane =>
    rw [top] at stood onPath ⊢
    obtain ⟨branch, named⟩ := kind_directory noFile found
    obtain ⟨notFile, asDirectory⟩ := entry_directory (upOf (⟨hash?, path, child :: rest⟩ :: below)) noFile found
    obtain ⟨files, directories⟩ := lists
    rw [← stood.joinPath_eq, named] at asDirectory
    rw [onPath] at fresh
    cases pending with
    | @cons _ _ inner _ inside others =>
      cases others with
      | @cons _ _ siblings later expands others =>
        refine ⟨_, .cons (.branch branch fresh sane inside expands) others, ?_, ?_, ?_⟩
        · rw [cons_append, append_assoc]
          exact sized.cons fun file' found' => absurd (noFile.symm.trans found') nofun
        · rw [files, cons_append, filterMap_cons_none notFile, append_assoc]
          rfl
        · grind

end Rarpar.Par3.TreeWalk

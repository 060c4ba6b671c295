import Rarpar.Par3.TreeRounds

namespace Rarpar.Par3
open List

open Chains (Below Expands Kind Reachable Cyclic)

/-! The walk ends, and lists exactly the chains from the root. -/

namespace TreeWalk

variable {walk : TreeWalk} {state next final : TreeWalk.State} {root : List Fingerprint}
  {chains : List (List Fingerprint)} {fuel : Nat}
  {e : Par3Error} {inputSetId : InputSetId}

/-! ### The loop -/

/-- Twice the entries that fit and the frames: every round takes away from it. -/
def State.potential (limits : SetLimits) (state : State) : Nat :=
  2 * (limits.maxEntries - (state.files.length + state.directories.length)) + state.stack.length

theorem Round.potential (round : Round walk state next) : next.potential walk.limits < state.potential walk.limits := by
  unfold State.potential
  cases round with
  | leave top =>
    rw [top, length_cons]
    exact Nat.lt_succ_self _
  | file top room found sized grants =>
    rw [top]
    simp only [State.paid, length_append, length_cons, length_nil]
    omega
  | directory top room noFile found fresh grants depth sane =>
    rw [top]
    simp only [State.paid, length_append, length_cons, length_nil]
    omega

theorem loop_ne_none (enough : state.potential walk.limits < fuel) : walk.loop fuel state ≠ none := by
  induction fuel generalizing state with
  | zero => exact absurd enough (Nat.not_lt_zero _)
  | succ fuel ih =>
    rw [loop]
    match stepped : walk.step state with
    | .error e => exact nofun
    | .ok none => exact nofun
    | .ok (some next) =>
      have less := (step_eq_some_iff.mp stepped).potential
      exact ih (by omega)

/-- `TreeWalk::run` always ends. -/
theorem run_ne_none (walk : TreeWalk) (root : List Fingerprint) : walk.run root ≠ none := by
  rw [run]
  match walk.checkNames root [] with
  | .error e => exact nofun
  | .ok () =>
    refine loop_ne_none ?_
    rw [State.potential]
    exact Nat.lt_succ_self _

theorem initial_standing (packets : TreePackets) (root : List Fingerprint) : Standing packets root (initial root) :=
  ⟨.bottom fun _ member => member, rfl⟩

/-- A loop that succeeds lists the chains that were pending. -/
theorem loop_lists (standing : Standing walk.packets root state) (looped : walk.loop fuel state = some (.ok final)) :
    ∃ chains, Pending walk.packets state.stack chains ∧ Sized walk.packets chains ∧ Lists walk.packets chains state final := by
  induction fuel generalizing state with
  | zero => cases looped
  | succ fuel ih =>
    rw [loop] at looped
    match stepped : walk.step state with
    | .error e =>
      rw [stepped] at looped
      cases looped
    | .ok none =>
      rw [stepped] at looped
      cases looped
      rw [step_eq_none_iff.mp stepped]
      exact ⟨[], .nil, nofun, (append_nil _).symm, (append_nil _).symm⟩
    | .ok (some next) =>
      rw [stepped] at looped
      have round := step_eq_some_iff.mp stepped
      obtain ⟨chains, pending, sized, lists⟩ := ih (standing.round round) looped
      exact round.lists standing pending sized lists

/-- The entries of a walk that succeeds are those of a listing. -/
theorem run_lists (ran : walk.run root = some (.ok final)) : walk.packets.Sane root ∧
    ∃ chains, Expands walk.packets.kind walk.packets.Sane [] root chains ∧ Sized walk.packets chains ∧
      final.files = chains.filterMap walk.packets.fileAt ∧ final.directories = chains.filterMap walk.packets.directoryAt := by
  rw [run] at ran
  match names : walk.checkNames root [] with
  | .error e =>
    rw [names] at ran
    cases ran
  | .ok () =>
    rw [names] at ran
    obtain ⟨chains, pending, sized, lists⟩ := loop_lists (initial_standing walk.packets root) ran
    refine ⟨(walk.checkNames_eq_ok_iff root []).mp names, ?_⟩
    cases pending with
    | cons expands rest =>
      cases rest
      rw [append_nil] at sized lists
      exact ⟨_, expands, sized, lists.files, lists.directories⟩

/-! ### Walks that fail -/

/-- The limits that a listing needs; a path never costs more than `u64::MAX`. -/
structure Enough (walk : TreeWalk) (chains : List (List Fingerprint)) (state : State) : Prop where
  entries : state.files.length + state.directories.length + chains.length ≤ walk.limits.maxEntries
  depth : ∀ chain ∈ chains, chain.length ≤ walk.limits.maxDepth
  paths : 2 ^ 64 - 1 ≤ walk.limits.maxPathBytes
  charge : ∀ count, walk.charge count

theorem Enough.grants (enough : Enough walk chains state) (path : List UInt8) : walk.Grants state path :=
  ⟨(Nat.min_le_right _ _).trans enough.paths, enough.charge _⟩

section
variable (enough : Enough walk chains state) (standing : Standing walk.packets root state)
  (pending : Pending walk.packets state.stack chains) (sized : Sized walk.packets chains)
include enough standing pending sized

/-- With enough limits a round from pending chains succeeds, and leaves fewer of them pending. -/
theorem Enough.step :
    walk.step state = .ok none ∨ ∃ next chains', walk.step state = .ok (some next) ∧ Enough walk chains' next ∧
      Pending walk.packets next.stack chains' ∧ Sized walk.packets chains' := by
  match top : state.stack with
  | [] => exact .inl (step_eq_none_iff.mpr top)
  | ⟨hash?, path, children⟩ :: below =>
    refine .inr ?_
    rw [top] at pending
    cases pending with
    | @cons _ _ chains later here rest =>
      cases here with
      | nil => exact ⟨_, later, step_leave top, ⟨enough.entries, enough.depth, enough.paths, enough.charge⟩, rest, sized⟩
      | @leaf _ siblings key chains leaf others =>
        obtain ⟨file, found⟩ := TreePackets.kind_eq_leaf leaf
        obtain ⟨size, here⟩ := Option.ne_none_iff_exists'.mp (sized key _ mem_cons_self file found)
        have entries := enough.entries
        rw [cons_append, length_cons] at entries
        refine ⟨_, chains ++ later, step_eq_some_iff.mpr (.file top (by omega) found here (enough.grants _)), ⟨?_, ?_, enough.paths,
          enough.charge⟩, .cons others rest, fun hash up member => sized hash up (mem_cons_of_mem _ member)⟩
        · rw [length_append, length_singleton]
          exact (show _ = _ by simp only [State.paid]; omega).trans_le entries
        · exact fun chain member => enough.depth chain (mem_cons_of_mem _ member)
      | @branch _ siblings sub key inner chains branch fresh clean inside others =>
        obtain ⟨directory, noFile, found, rfl⟩ := TreePackets.kind_eq_branch branch
        obtain ⟨stood, onPath⟩ := standing
        rw [top] at stood onPath
        have entries := enough.entries
        rw [cons_append, length_cons, append_assoc] at entries
        have depth := stood.advance.length_le.trans (enough.depth _ mem_cons_self)
        refine ⟨_, inner ++ (chains ++ later), step_eq_some_iff.mpr (.directory top (by omega) noFile found (onPath ▸ fresh)
          (enough.grants _) depth clean), ⟨?_, ?_, enough.paths, enough.charge⟩, .cons inside (.cons others rest), ?_⟩
        · rw [length_append, length_singleton]
          exact (show _ = _ by simp only [State.paid]; omega).trans_le entries
        · exact fun chain member => enough.depth chain (by rw [cons_append, append_assoc]; exact mem_cons_of_mem _ member)
        · exact fun hash up member => sized hash up (by rw [cons_append, append_assoc]; exact mem_cons_of_mem _ member)

/-- With enough limits no loop over pending chains fails. -/
theorem Enough.loop : walk.loop fuel state ≠ some (.error e) := by
  induction fuel generalizing state chains with
  | zero => exact nofun
  | succ fuel ih =>
    rw [TreeWalk.loop]
    rcases enough.step standing pending sized with stepped | ⟨next, chains', stepped, enough', pending', sized'⟩
    · rw [stepped]
      exact nofun
    · rw [stepped]
      exact ih enough' (standing.round (step_eq_some_iff.mp stepped)) pending' sized'

end

/-- With enough limits the walk of a listing succeeds. -/
theorem run_of_expands (sane : walk.packets.Sane root) (expands : Expands walk.packets.kind walk.packets.Sane [] root chains)
    (sized : Sized walk.packets chains) (enough : Enough walk chains (initial root)) : ∃ final, walk.run root = some (.ok final) := by
  match ran : walk.run root with
  | none => exact absurd ran (walk.run_ne_none root)
  | some (.ok final) => exact ⟨final, rfl⟩
  | some (.error e) =>
    rw [run, (walk.checkNames_eq_ok_iff root []).mpr sane] at ran
    have pending : Pending walk.packets (initial root).stack _ := .cons expands .nil
    rw [append_nil] at pending
    exact absurd ran (enough.loop (initial_standing walk.packets root) pending sized)

/-! ### Cycles -/

/-- The result is not the error about a cycle. -/
def NoCycle {α : Type} (result : Except Par3Error α) : Prop := ∀ inputSetId, result ≠ .error (.cyclicDirectoryTree inputSetId)

theorem NoCycle.bind {α β : Type} {first : Except Par3Error α} {second : α → Except Par3Error β} (here : NoCycle first)
    (rest : ∀ a, NoCycle (second a)) : NoCycle (first >>= second) := by
  cases first with
  | error e => exact fun inputSetId same => here _ (congrArg _ (Except.error.inj same))
  | ok a => exact rest a

theorem NoCycle.pure {α : Type} (a : α) : NoCycle (Pure.pure a) := by
  intro inputSetId same
  cases same

theorem noCycle_chargePath (path : List UInt8) : NoCycle (walk.chargePath path state) := by
  intro inputSetId
  unfold chargePath
  dsimp only
  split_ifs
  · exact nofun
  · exact nofun

theorem noCycle_chargeEntry : NoCycle (walk.chargeEntry state) := by
  intro inputSetId
  unfold chargeEntry
  split_ifs
  · exact nofun
  · exact nofun

theorem noCycle_checkDepth : NoCycle (walk.checkDepth state) := by
  intro inputSetId
  unfold checkDepth
  split_ifs
  · exact nofun
  · exact nofun

theorem noCycle_checkNamesFrom (directory : List UInt8) (names : List (List UInt8)) (children : List Fingerprint) :
    NoCycle (walk.checkNamesFrom directory names children) := by
  induction children generalizing names with
  | nil =>
    intro _ cycle
    cases cycle
  | cons child rest ih =>
    rw [checkNamesFrom]
    cases walk.packets.name child with
    | none =>
      intro _ cycle
      cases cycle
    | some name =>
      dsimp only
      split_ifs
      · intro _ cycle
        cases cycle
      · exact ih _

/-- A child is refused as a cycle only if it is a directory of the path. -/
theorem enter_cyclic {child : Fingerprint} {parent : List UInt8}
    (failed : walk.enter child parent state = .error (.cyclicDirectoryTree inputSetId)) : child ∈ state.onPath := by
  unfold enter at failed
  cases found : walk.packets.files.lookup child with
  | some file =>
    rw [found] at failed
    refine absurd failed ?_
    dsimp only
    unfold enterFile
    cases file.fileSize with
    | none => exact nofun
    | some size => exact ((noCycle_chargePath _).bind fun _ => noCycle_chargeEntry.bind fun _ => .pure _) _
  | none =>
    rw [found] at failed
    cases found' : walk.packets.directories.lookup child with
    | none =>
      rw [found'] at failed
      cases failed
    | some directory =>
      rw [found'] at failed
      by_contra fresh
      dsimp only at failed
      rw [if_neg fresh] at failed
      exact ((noCycle_chargePath _).bind fun _ => noCycle_checkDepth.bind fun _ => (noCycle_checkNamesFrom _ _ _).bind fun _ =>
        noCycle_chargeEntry.bind fun _ => .pure _) _ failed

theorem loop_cyclic (standing : Standing walk.packets root state)
    (failed : walk.loop fuel state = some (.error (.cyclicDirectoryTree inputSetId))) : Cyclic walk.packets.kind root := by
  induction fuel generalizing state with
  | zero => cases failed
  | succ fuel ih =>
    rw [loop] at failed
    match stepped : walk.step state with
    | .ok none =>
      rw [stepped] at failed
      cases failed
    | .ok (some next) =>
      rw [stepped] at failed
      exact ih (standing.round (step_eq_some_iff.mp stepped)) failed
    | .error e =>
      rw [stepped] at failed
      cases failed
      obtain ⟨stood, onPath⟩ := standing
      match top : state.stack with
      | [] =>
        rw [step_eq_none_iff.mpr top] at stepped
        cases stepped
      | ⟨hash?, path, []⟩ :: below =>
        rw [step_leave top] at stepped
        cases stepped
      | ⟨hash?, path, child :: rest⟩ :: below =>
        rw [top] at stood onPath
        have again : child ∈ state.onPath := by
          rw [step, top] at stepped
          dsimp only at stepped
          split_ifs at stepped
          · cases stepped
          · cases entered : walk.enter child path { state with stack := ⟨hash?, path, rest⟩ :: below } with
            | error e =>
              rw [entered] at stepped
              cases stepped
              have onPath := enter_cyclic entered
              exact onPath
            | ok next =>
              rw [entered] at stepped
              cases stepped
        by_contra acyclic
        exact (nodup_cons.mp (stood.chain.nodup acyclic)).1 (onPath ▸ again)

/-- The walk reports a cycle only if one can be reached. -/
theorem run_cyclic (failed : walk.run root = some (.error (.cyclicDirectoryTree inputSetId))) :
    Cyclic walk.packets.kind root := by
  rw [run] at failed
  match names : walk.checkNames root [] with
  | .error e =>
    rw [names] at failed
    cases failed
    exact absurd names (noCycle_checkNamesFrom _ _ _ _)
  | .ok () =>
    rw [names] at failed
    exact loop_cyclic (initial_standing walk.packets root) failed

end TreeWalk
end Rarpar.Par3

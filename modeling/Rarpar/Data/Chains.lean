import Mathlib.Data.Finset.Card

namespace Rarpar.Chains
open List
variable {κ ν : Type}

/-! Chains from the roots of a graph to its nodes, the newest node first, and their listing in depth-first order. -/

/-- What a key of the graph stands for. -/
inductive Kind (κ : Type)
  | missing
  | leaf
  | branch (children : List κ)

variable (kind : κ → Kind κ) (sane : List κ → Prop)

/-- The chains that go on from `up` with one of these children. -/
inductive Below (up children : List κ) : List κ → Prop
  | top {key : κ} (member : key ∈ children) : Below up children (key :: up)
  | down {key parent : κ} {rest sub : List κ} (chain : Below up children (parent :: rest)) (branch : kind parent = .branch sub)
      (member : key ∈ sub) : Below up children (key :: parent :: rest)

def Child (parent key : κ) : Prop := ∃ sub, kind parent = .branch sub ∧ key ∈ sub

def Reachable (children : List κ) (key : κ) : Prop := ∃ top ∈ children, Relation.ReflTransGen (Child kind) top key

/-- A key that can be reached is below itself. -/
def Cyclic (children : List κ) : Prop := ∃ key, Reachable kind children key ∧ Relation.TransGen (Child kind) key key

/-- The listing of the chains below `up`, if every key is there, no branch is below itself and the children of each are sane. -/
inductive Expands : List κ → List κ → List (List κ) → Prop
  | nil {up : List κ} : Expands up [] []
  | leaf {up siblings : List κ} {key : κ} {chains : List (List κ)} (here : kind key = .leaf) (rest : Expands up siblings chains) :
      Expands up (key :: siblings) ((key :: up) :: chains)
  | branch {up siblings sub : List κ} {key : κ} {inner chains : List (List κ)} (here : kind key = .branch sub) (fresh : key ∉ up)
      (clean : sane sub) (inside : Expands (key :: up) sub inner) (rest : Expands up siblings chains) :
      Expands up (key :: siblings) ((key :: up) :: (inner ++ chains))

variable {kind sane} {up children siblings chain : List κ} {chains : List (List κ)} {key : κ}

theorem Below.more (below : Below kind up siblings chain) (all : ∀ key ∈ siblings, key ∈ children) : Below kind up children chain := by
  induction below with
  | top member => exact .top (all _ member)
  | down _ branch member ih => exact .down ih branch member

/-- A chain below a child is one below its parent. -/
theorem Below.lift {sub : List κ} (below : Below kind (key :: up) sub chain) (here : kind key = .branch sub) (member : key ∈ children) :
    Below kind up children chain := by
  induction below with
  | top member' => exact .down (.top member) here member'
  | down _ branch member' ih => exact .down ih branch member'

/-- A chain goes on with the first child or with one of its siblings. -/
theorem Below.cases_cons (below : Below kind up (key :: siblings) chain) :
    chain = key :: up ∨ (∃ sub, kind key = .branch sub ∧ Below kind (key :: up) sub chain) ∨ Below kind up siblings chain := by
  induction below with
  | top member =>
    rcases mem_cons.mp member with rfl | member
    · exact .inl rfl
    · exact .inr (.inr (.top member))
  | @down next parent rest sub _ branch member ih =>
    rcases ih with same | ⟨sub', here, inside⟩ | outside
    · obtain ⟨rfl, rfl⟩ := cons.inj same
      exact .inr (.inl ⟨sub, branch, .top member⟩)
    · exact .inr (.inl ⟨sub', here, .down inside branch member⟩)
    · exact .inr (.inr (.down outside branch member))

theorem Below.shape (below : Below kind up children chain) : ∃ front key, chain = front ++ key :: up ∧ key ∈ children := by
  induction below with
  | top member => exact ⟨[], _, rfl, member⟩
  | down _ _ _ ih =>
    obtain ⟨front, key, same, member⟩ := ih
    exact ⟨_ :: front, key, by rw [same]; rfl, member⟩

theorem Below.reachable (below : Below kind [] children chain) : ∀ key ∈ chain, Reachable kind children key := by
  induction below with
  | top member =>
    intro key inside
    obtain rfl := mem_singleton.mp inside
    exact ⟨key, member, .refl⟩
  | @down next parent rest sub _ branch member ih =>
    obtain ⟨top, start, reach⟩ := ih parent mem_cons_self
    exact forall_mem_cons.mpr ⟨⟨top, start, reach.tail ⟨sub, branch, member⟩⟩, ih⟩

theorem Reachable.exists_below (reach : Reachable kind children key) : ∃ rest, Below kind [] children (key :: rest) := by
  obtain ⟨top, start, path⟩ := reach
  induction path with
  | refl => exact ⟨[], .top start⟩
  | tail _ edge ih =>
    obtain ⟨rest, below⟩ := ih
    obtain ⟨sub, branch, member⟩ := edge
    exact ⟨_, .down below branch member⟩

/-- Each key of a chain leads to the newer ones. -/
theorem Below.pairwise (below : Below kind [] children chain) :
    chain.Pairwise fun newer older => Relation.TransGen (Child kind) older newer := by
  induction below with
  | top => exact pairwise_singleton _ _
  | @down next parent rest sub _ branch member ih =>
    have edge : Child kind parent next := ⟨sub, branch, member⟩
    refine pairwise_cons.mpr ⟨forall_mem_cons.mpr ⟨.single edge, fun older inside => ?_⟩, ih⟩
    exact ((pairwise_cons.mp ih).1 older inside).tail edge

theorem Below.nodup (below : Below kind [] children chain) (acyclic : ¬ Cyclic kind children) : chain.Nodup := by
  refine below.pairwise.imp_of_mem fun {newer older} inside _ path same => acyclic ⟨newer, below.reachable newer inside, ?_⟩
  subst same
  exact path

theorem Below.extend {rest : List κ} {other : κ} (below : Below kind up children (key :: rest))
    (path : Relation.TransGen (Child kind) key other) : ∃ front, Below kind up children (other :: (front ++ key :: rest)) := by
  induction path with
  | single edge =>
    obtain ⟨sub, branch, member⟩ := edge
    exact ⟨[], .down below branch member⟩
  | tail _ edge ih =>
    obtain ⟨front, chain⟩ := ih
    obtain ⟨sub, branch, member⟩ := edge
    exact ⟨_ :: front, .down chain branch member⟩

/-- If a key is below itself, some chain passes it twice. -/
theorem Cyclic.exists_below (cyclic : Cyclic kind children) : ∃ chain, Below kind [] children chain ∧ ¬ chain.Nodup := by
  obtain ⟨key, reach, path⟩ := cyclic
  obtain ⟨rest, below⟩ := reach.exists_below
  obtain ⟨front, chain⟩ := below.extend path
  exact ⟨_, chain, fun nodup => (nodup_cons.mp nodup).1 (by simp)⟩

/-- The listing holds exactly the chains. -/
theorem Expands.mem_iff (expands : Expands kind sane up children chains) : chain ∈ chains ↔ Below kind up children chain := by
  induction expands generalizing chain with
  | nil =>
    refine ⟨nofun, fun below => ?_⟩
    obtain ⟨_, _, _, member⟩ := below.shape
    exact absurd member not_mem_nil
  | @leaf up siblings key chains here rest ih =>
    rw [mem_cons, ih]
    constructor
    · rintro (rfl | later)
      · exact .top mem_cons_self
      · exact later.more fun _ => mem_cons_of_mem key
    · intro below
      rcases below.cases_cons with same | ⟨sub, branch, -⟩ | later
      · exact .inl same
      · exact absurd (here.symm.trans branch) nofun
      · exact .inr later
  | @branch up siblings sub key inner chains here fresh clean inside rest ih ih' =>
    rw [mem_cons, mem_append, ih, ih']
    constructor
    · rintro (rfl | within | later)
      · exact .top mem_cons_self
      · exact within.lift here mem_cons_self
      · exact later.more fun _ => mem_cons_of_mem key
    · intro below
      rcases below.cases_cons with same | ⟨sub', branch, within⟩ | later
      · exact .inl same
      · cases here.symm.trans branch
        exact .inr (.inl within)
      · exact .inr (.inr later)

/-- What holds of every chain of a listing. -/
structure Sound (kind : κ → Kind κ) (sane : List κ → Prop) (chain : List κ) : Prop where
  nodup : chain.Nodup
  present : ∀ key ∈ chain, kind key ≠ .missing
  clean : ∀ key ∈ chain, ∀ sub, kind key = .branch sub → sane sub

theorem Sound.cons (above : Sound kind sane up) (fresh : key ∉ up) (present : kind key ≠ .missing)
    (clean : ∀ sub, kind key = .branch sub → sane sub) : Sound kind sane (key :: up) :=
  ⟨nodup_cons.mpr ⟨fresh, above.nodup⟩, forall_mem_cons.mpr ⟨present, above.present⟩, forall_mem_cons.mpr ⟨clean, above.clean⟩⟩

theorem Expands.sound (expands : Expands kind sane up children chains) (above : Sound kind sane up)
    (branches : ∀ key ∈ up, ∃ sub, kind key = .branch sub) : ∀ chain ∈ chains, Sound kind sane chain := by
  induction expands with
  | nil => nofun
  | @leaf up siblings key chains here rest ih =>
    have other (sub : List κ) : kind key ≠ .branch sub := by
      rw [here]
      nofun
    refine forall_mem_cons.mpr ⟨above.cons (fun old => ?_) ?_ fun sub branch => absurd branch (other sub), ih above branches⟩
    · obtain ⟨sub, branch⟩ := branches key old
      exact other sub branch
    · rw [here]
      nofun
  | @branch up siblings sub key inner chains here fresh clean inside rest ih ih' =>
    have grown : Sound kind sane (key :: up) := by
      refine above.cons fresh ?_ fun sub' branch => ?_
      · rw [here]
        nofun
      · cases here.symm.trans branch
        exact clean
    refine forall_mem_cons.mpr ⟨grown, forall_mem_append.mpr ⟨?_, ih' above branches⟩⟩
    exact ih grown (forall_mem_cons.mpr ⟨⟨sub, here⟩, branches⟩)

/-- A chain below the siblings does not pass through a child whose name none of them has. -/
theorem Below.not_named {name : κ → ν} (below : Below kind up siblings chain) (other : name key ∉ siblings.map name) (front : List ν) :
    chain.map name ≠ front ++ name key :: up.map name := by
  intro same
  obtain ⟨front', key', rfl, member⟩ := below.shape
  rw [map_append, map_cons] at same
  have tails := append_inj_right' same rfl
  exact other ((cons.inj tails).1 ▸ mem_map_of_mem member)

/-- If the names of siblings differ, no two chains of the listing have the same names. -/
theorem Expands.names_nodup {name : κ → ν} (expands : Expands kind sane up children chains) (siblings : (children.map name).Nodup)
    (clean : ∀ sub, sane sub → (sub.map name).Nodup) : (chains.map (map name)).Nodup := by
  induction expands with
  | nil => exact .nil
  | @leaf up siblings' key chains here rest ih =>
    rw [map_cons, nodup_cons] at siblings ⊢
    refine ⟨fun again => ?_, ih siblings.2⟩
    obtain ⟨chain, member, same⟩ := mem_map.mp again
    exact (rest.mem_iff.mp member).not_named siblings.1 [] same
  | @branch up siblings' sub key inner chains here fresh clean' inside rest ih ih' =>
    rw [map_cons, nodup_cons] at siblings
    rw [map_cons, map_append, nodup_cons, nodup_append']
    refine ⟨fun again => ?_, ih (clean sub clean'), ih' siblings.2, ?_⟩
    · rcases mem_append.mp again with again | again
      · -- a chain below the child is longer
        obtain ⟨chain, member, same⟩ := mem_map.mp again
        obtain ⟨front, key', rfl, -⟩ := (inside.mem_iff.mp member).shape
        have lengths := congrArg length same
        simp only [length_map, length_append, length_cons] at lengths
        omega
      · obtain ⟨chain, member, same⟩ := mem_map.mp again
        exact (rest.mem_iff.mp member).not_named siblings.1 [] same
    · -- and a chain below a sibling does not pass through the child
      intro names within later
      obtain ⟨chain, member, rfl⟩ := mem_map.mp within
      obtain ⟨chain', member', same⟩ := mem_map.mp later
      obtain ⟨front, key', rfl, -⟩ := (inside.mem_iff.mp member).shape
      refine (rest.mem_iff.mp member').not_named siblings.1 ((front ++ [key']).map name) (same.trans ?_)
      simp

/-- If there are finitely many branches, and every chain is sound, there is a listing. -/
theorem Expands.total [DecidableEq κ] {branches : Finset κ} (finite : ∀ key sub, kind key = .branch sub → key ∈ branches)
    (sound : ∀ chain, Below kind up children chain → Sound kind sane chain) : ∃ chains, Expands kind sane up children chains := by
  -- on the branches that the chain has not passed, and then on the children
  induction size : (branches \ up.toFinset).card using Nat.strong_induction_on generalizing up children with
  | _ count ih =>
    induction children with
    | nil => exact ⟨[], .nil⟩
    | cons key siblings ih' =>
      obtain ⟨chains, rest⟩ := ih' fun chain below => sound chain (below.more fun _ => mem_cons_of_mem key)
      have here := sound (key :: up) (.top mem_cons_self)
      match found : kind key with
      | .missing => exact absurd found (here.present key mem_cons_self)
      | .leaf => exact ⟨_, .leaf found rest⟩
      | .branch sub =>
        have fresh := (nodup_cons.mp here.nodup).1
        have fewer : (branches \ (key :: up).toFinset).card < count := by
          subst size
          refine Finset.card_lt_card ⟨fun other inside => ?_, fun subset => ?_⟩
          · rw [Finset.mem_sdiff, mem_toFinset] at inside ⊢
            exact ⟨inside.1, fun old => inside.2 (mem_cons_of_mem key old)⟩
          · have inside := subset (Finset.mem_sdiff.mpr ⟨finite key sub found, fun old => fresh (mem_toFinset.mp old)⟩)
            exact (Finset.mem_sdiff.mp inside).2 (mem_toFinset.mpr mem_cons_self)
        obtain ⟨inner, inside⟩ := ih _ fewer (fun chain below => sound chain (below.lift found mem_cons_self)) rfl
        exact ⟨_, .branch found fresh (here.clean key mem_cons_self sub found) inside rest⟩

end Rarpar.Chains

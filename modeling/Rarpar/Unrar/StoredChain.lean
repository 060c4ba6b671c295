import Rarpar.Unrar.StoredLayout

namespace Rarpar.Unrar
open List Option

namespace StoredMemberPart

/-- The part without its offset, as its header states it. -/
def erase (p : StoredMemberPart) : StoredMemberPart := { p with logicalOffset := none }

variable (p : StoredMemberPart)

@[simp] theorem erase_volume : p.erase.volume = p.volume := rfl
@[simp] theorem erase_dataSize : p.erase.dataSize = p.dataSize := rfl
@[simp] theorem erase_dataOffset : p.erase.dataOffset = p.dataOffset := rfl
@[simp] theorem erase_splitBefore : p.erase.splitBefore = p.splitBefore := rfl
@[simp] theorem erase_splitAfter : p.erase.splitAfter = p.splitAfter := rfl

end StoredMemberPart
open StoredMemberPart (erase)

variable {parts parts' : List StoredMemberPart} {running : Option Nat} {expected r l : Nat} {p q : StoredMemberPart}

/-- The parts of a chain in the order of their volumes. -/
def VolumeOrder (parts : List StoredMemberPart) : Prop := parts.Pairwise fun p q => p.volume < q.volume

theorem VolumeOrder.unique (order : VolumeOrder parts) (first : p ∈ parts) (second : q ∈ parts) (same : p.volume = q.volume) :
    p = q := by
  have apart : parts.Pairwise fun x y => x.volume = q.volume → ¬y.volume = q.volume := order.imp fun less => by omega
  exact unique_of_pairwise apart first second same rfl

theorem VolumeOrder.head_le (order : VolumeOrder (p :: parts)) : ∀ q ∈ p :: parts, p.volume ≤ q.volume :=
  forall_mem_cons.mpr ⟨le_rfl, fun q later => ((pairwise_cons.mp order).1 q later).le⟩

theorem VolumeOrder.ext (order : VolumeOrder parts) (order' : VolumeOrder parts') (same : ∀ p, p ∈ parts ↔ p ∈ parts') :
    parts = parts' := by
  have : Std.Irrefl fun p q : StoredMemberPart => p.volume < q.volume := ⟨fun _ => lt_irrefl _⟩
  have : Std.Antisymm fun p q : StoredMemberPart => p.volume < q.volume :=
    ⟨fun _ _ less more => absurd (less.trans more) (lt_irrefl _)⟩
  exact List.Pairwise.eq_of_mem_iff order order' same

/-! ### Offsets -/

theorem checkedAdd_eq_some {a b c : Nat} : checkedAdd a b = some c ↔ c = a + b ∧ a + b ≤ u64Max := by
  unfold checkedAdd
  split_ifs with fits
  · simp only [some.injEq, fits, and_true]
    exact eq_comm
  · simp only [reduceCtorEq, fits, and_false]

theorem placeParts_cons : placeParts running expected (p :: parts) =
    let running := if p.volume ≠ expected then none else running
    let tail := placeParts (running.bind (checkedAdd · p.dataSize)) (nextVolume p.volume) parts
    ({ p with logicalOffset := running } :: tail.1, tail.2) := rfl

section
variable (running : Option Nat) (expected : Nat) (parts : List StoredMemberPart)

theorem map_erase_place : (placeParts running expected parts).1.map erase = parts.map erase := by
  induction parts generalizing running expected with
  | nil => rfl
  | cons p rest ih =>
    rw [placeParts_cons]
    exact congrArg (erase p :: ·) (ih _ _)

theorem placeParts_map_erase :
    placeParts running expected (parts.map erase) = placeParts running expected parts := by
  induction parts generalizing running expected with
  | nil => rfl
  | cons p rest ih =>
    simp only [map_cons, placeParts_cons, ih, StoredMemberPart.erase_volume, StoredMemberPart.erase_dataSize]
    rfl

end

/-- An offset is known only where one was known to start with, and lies at or after it. -/
theorem le_of_mem_place (member : p ∈ (placeParts running expected parts).1) {b : Nat} (known : p.logicalOffset = some b) :
    ∃ r, running = some r ∧ r ≤ b := by
  induction parts generalizing running expected with
  | nil => cases member
  | cons h t ih =>
    rw [placeParts_cons] at member
    rcases mem_cons.mp member with rfl | later
    · dsimp only at known
      split_ifs at known
      · exact ⟨b, known, le_rfl⟩
    · obtain ⟨r, sum, below⟩ := ih later
      obtain ⟨s, start, sum⟩ := bind_eq_some_iff.mp sum
      obtain ⟨rfl, _⟩ := checkedAdd_eq_some.mp sum
      split_ifs at start
      · exact ⟨s, start, by omega⟩

/-- Without a start there is no end. -/
theorem place_none {t : Nat} (expected : Nat) (parts : List StoredMemberPart) :
    (placeParts none expected parts).2 ≠ some t := by
  induction parts generalizing expected with
  | nil => exact nofun
  | cons h rest ih =>
    rw [placeParts_cons]
    simp only [ne_eq, ite_self, bind_none]
    exact ih _

/-- Known offsets leave room for the parts before. -/
theorem place_disjoint (running : Option Nat) (expected : Nat) (parts : List StoredMemberPart) :
    (placeParts running expected parts).1.Pairwise fun p q =>
      ∀ a b, p.logicalOffset = some a → q.logicalOffset = some b → a + p.dataSize ≤ b := by
  induction parts generalizing running expected with
  | nil => exact List.Pairwise.nil
  | cons h t ih =>
    rw [placeParts_cons]
    refine pairwise_cons.mpr ⟨fun q later a b first second => ?_, ih _ _⟩
    obtain ⟨r, sum, below⟩ := le_of_mem_place later second
    dsimp only at first
    rw [first] at sum
    obtain ⟨rfl, _⟩ := checkedAdd_eq_some.mp sum
    exact below

/-- The byte of the member at `l` lies in the part. -/
def StoredMemberPart.Holds (l : Nat) (p : StoredMemberPart) : Prop :=
  ∃ b, p.logicalOffset = some b ∧ b ≤ l ∧ l < b + p.dataSize

/-- No byte of a member lies in two parts. -/
theorem place_unique (first : p ∈ (placeParts running expected parts).1)
    (second : q ∈ (placeParts running expected parts).1) (inP : p.Holds l) (inQ : q.Holds l) : p = q := by
  refine unique_of_pairwise ((place_disjoint running _ parts).imp ?_) first second inP inQ
  rintro p q disjoint ⟨a, atP, inP⟩ ⟨b, atQ, inQ⟩
  have := disjoint a b atP atQ
  omega

def packedSum (parts : List StoredMemberPart) : Nat := (parts.map (·.dataSize)).sum

/-- Up to a known end every byte lies in a part. -/
theorem place_covers {t : Nat} (whole : (placeParts (some r) expected parts).2 = some t) :
    t = r + packedSum parts ∧ ∀ l, r ≤ l → l < t → ∃ p ∈ (placeParts (some r) expected parts).1, p.Holds l := by
  induction parts generalizing r expected with
  | nil =>
    cases whole
    exact ⟨rfl, fun l low high => absurd low (by omega)⟩
  | cons h rest ih =>
    rw [placeParts_cons] at whole ⊢
    by_cases here : h.volume = expected
    · rw [if_neg (not_not_intro here)] at whole ⊢
      dsimp only [bind_some] at whole ⊢
      cases sum : checkedAdd r h.dataSize with
      | none =>
        rw [sum] at whole
        exact absurd whole (place_none _ _)
      | some s =>
        rw [sum] at whole
        obtain ⟨rfl, _⟩ := checkedAdd_eq_some.mp sum
        obtain ⟨total, covered⟩ := ih whole
        refine ⟨by rw [total, packedSum, packedSum, map_cons, sum_cons, Nat.add_assoc], fun l low high => ?_⟩
        by_cases inside : l < r + h.dataSize
        · exact ⟨_, mem_cons_self, r, rfl, low, inside⟩
        · obtain ⟨p, later, holds⟩ := covered l (by omega) high
          exact ⟨p, mem_cons_of_mem _ later, holds⟩
    · rw [if_pos here] at whole
      exact absurd whole (place_none _ _)

theorem packedTotal_none (parts : List StoredMemberPart) :
    parts.foldl (fun total part => total.bind (checkedAdd · part.dataSize)) none = none := by
  induction parts with
  | nil => rfl
  | cons _ _ ih => exact ih

theorem packedTotal_from {total : Nat} (fits : total ≤ u64Max) (parts : List StoredMemberPart) :
    parts.foldl (fun total part => total.bind (checkedAdd · part.dataSize)) (some total) =
      if total + packedSum parts ≤ u64Max then some (total + packedSum parts) else none := by
  induction parts generalizing total with
  | nil => exact (if_pos fits).symm
  | cons h rest ih =>
    have sum : total + packedSum (h :: rest) = total + h.dataSize + packedSum rest := by
      rw [packedSum, map_cons, sum_cons, Nat.add_assoc]
      rfl
    rw [sum, foldl_cons, bind_some, checkedAdd]
    by_cases next : total + h.dataSize ≤ u64Max
    · rw [if_pos next]
      exact ih next
    · rw [if_neg next, if_neg (by omega)]
      exact packedTotal_none rest

theorem packedTotal_eq (parts : List StoredMemberPart) :
    packedTotal parts = if packedSum parts ≤ u64Max then some (packedSum parts) else none := by
  rw [packedTotal, packedTotal_from (Nat.zero_le _), Nat.zero_add]

/-! ### Chains without a hole -/

theorem nextVolume_le (volume : Nat) : nextVolume volume ≤ volume + 1 := min_le_left _ _

/-- A chain with a known end has a part in every volume of its span. -/
theorem place_contiguous (whole : (placeParts running expected parts).2.isSome) {v : Nat} (low : expected ≤ v)
    (high : ∃ q ∈ parts, v ≤ q.volume) : ∃ p ∈ parts, p.volume = v := by
  induction parts generalizing running expected with
  | nil =>
    obtain ⟨_, member, _⟩ := high
    cases member
  | cons h rest ih =>
    rw [placeParts_cons] at whole
    by_cases here : h.volume = expected
    · by_cases first : v = expected
      · exact ⟨h, mem_cons_self, here.trans first.symm⟩
      · obtain ⟨q, member, above⟩ := high
        have later : q ∈ rest := by
          rcases mem_cons.mp member with rfl | later
          · exact absurd above (by omega)
          · exact later
        have next := nextVolume_le h.volume
        obtain ⟨p, there, same⟩ := ih whole (by omega) ⟨q, later, above⟩
        exact ⟨p, mem_cons_of_mem h there, same⟩
    · dsimp only at whole
      rw [if_pos here] at whole
      obtain ⟨t, known⟩ := isSome_iff_exists.mp whole
      exact absurd known (place_none _ _)

/-- Known offsets stay when parts are added behind the start of the chain. -/
theorem mem_place_of_subset (order : VolumeOrder parts) (order' : VolumeOrder parts') (sub : ∀ p ∈ parts, p ∈ parts')
    (above : ∀ q ∈ parts', expected ≤ q.volume) (member : p ∈ (placeParts running expected parts).1)
    (known : p.logicalOffset.isSome) : p ∈ (placeParts running expected parts').1 := by
  obtain ⟨b, known⟩ := isSome_iff_exists.mp known
  induction parts generalizing running expected parts' with
  | nil => cases member
  | cons h rest ih =>
    have here : h.volume = expected := by
      by_contra other
      rw [placeParts_cons, if_pos other] at member
      rcases mem_cons.mp member with rfl | later
      · cases known
      · obtain ⟨_, impossible, _⟩ := le_of_mem_place later known
        cases impossible
    -- the first part has the smallest volume allowed, so it is first in the larger chain too
    obtain ⟨rest', rfl⟩ : ∃ rest', parts' = h :: rest' := by
      cases parts' with
      | nil => exact absurd (sub h mem_cons_self) not_mem_nil
      | cons h' rest' =>
        rcases mem_cons.mp (sub h mem_cons_self) with rfl | later
        · exact ⟨rest', rfl⟩
        · have := (pairwise_cons.mp order').1 h later
          have := above h' mem_cons_self
          omega
    obtain ⟨before, order⟩ := pairwise_cons.mp order
    obtain ⟨before', order'⟩ := pairwise_cons.mp order'
    rw [placeParts_cons] at member ⊢
    rcases mem_cons.mp member with rfl | later
    · exact mem_cons_self
    · refine mem_cons_of_mem _ (ih order order' (fun q there => ?_) (fun q there => ?_) later)
      · rcases mem_cons.mp (sub q (mem_cons_of_mem h there)) with rfl | found
        · exact absurd (before q there) (lt_irrefl _)
        · exact found
      · have := before' q there
        have := nextVolume_le h.volume
        omega

/-! ### Well-formed chains -/

/-- The split flags agree with the order of the parts, and no added volume lies in a hole. -/
structure WellFormed (added : Nat → Bool) (parts : List StoredMemberPart) : Prop where
  starts : ∀ p ∈ parts, ∀ q ∈ parts, q.volume < p.volume → p.splitBefore = true
  ends : ∀ p ∈ parts, ∀ q ∈ parts, p.volume < q.volume → p.splitAfter = true
  first : ∀ p ∈ parts, p.volume = 0 → p.splitBefore = false
  holes : ∀ v, added v = true → ∀ p ∈ parts, ∀ q ∈ parts, p.volume < v → v < q.volume → ∃ r ∈ parts, r.volume = v

/-- A part of a longer chain stays well formed when only volumes of the part itself count as added. -/
theorem WellFormed.subset {added added' : Nat → Bool} (formed : WellFormed added' parts')
    (sub : ∀ p ∈ parts, p ∈ parts') (fewer : ∀ v, added v = true → added' v = true)
    (own : ∀ p ∈ parts', added p.volume = true → p ∈ parts) : WellFormed added parts where
  starts p first q second := formed.starts p (sub p first) q (sub q second)
  ends p first q second := formed.ends p (sub p first) q (sub q second)
  first p member := formed.first p (sub p member)
  holes v there p first q second low high := by
    obtain ⟨r, member, rfl⟩ := formed.holes v (fewer v there) p (sub p first) q (sub q second) low high
    exact ⟨r, own r member there, rfl⟩

/-- The split flags say that every part behind another continues it and that the other one goes on. -/
theorem misplacedEnds_eq_none (position : Nat) (h : StoredMemberPart) (rest : List StoredMemberPart) :
    misplacedEnds (position + rest.length) position (h :: rest) = none ↔ (position ≠ 0 → h.splitBefore = true) ∧
      (h :: rest).Pairwise fun p q => q.splitBefore = true ∧ p.splitAfter = true := by
  induction rest generalizing position h with
  | nil =>
    rw [misplacedEnds, misplacedEnds]
    grind
  | cons h' rest ih =>
    have next := ih (position + 1) h'
    rw [pairwise_cons] at next
    rw [misplacedEnds, length_cons, Nat.add_comm rest.length, ← Nat.add_assoc, pairwise_cons, pairwise_cons]
    grind

section
variable (order : VolumeOrder parts)
include order

theorem VolumeOrder.pairwise_iff {R : StoredMemberPart → StoredMemberPart → Prop} :
    parts.Pairwise R ↔ ∀ p ∈ parts, ∀ q ∈ parts, p.volume < q.volume → R p q := by
  refine ⟨fun all p first q second less => ?_, fun all => order.imp_of_mem fun first second less => all _ first _ second less⟩
  have symm : Std.Symm fun p q : StoredMemberPart => (p.volume < q.volume → R p q) ∧ (q.volume < p.volume → R q p) :=
    ⟨fun _ _ => And.symm⟩
  have both : parts.Pairwise fun p q => (p.volume < q.volume → R p q) ∧ (q.volume < p.volume → R q p) :=
    (order.and all).imp fun both => ⟨fun _ => both.2, fun more => absurd more both.1.not_gt⟩
  exact (both.forall first second (by rintro rfl; exact lt_irrefl _ less)).1 less

/-- No added volume lies between `expected` and the last part without holding a part. -/
theorem missingPart_eq_none {added : Nat → Bool} (above : ∀ p ∈ parts, expected ≤ p.volume)
    (bounded : ∀ p ∈ parts, p.volume ≤ u32Max) :
    missingPart added expected parts = none ↔
      ∀ v, added v = true → expected ≤ v → (∃ q ∈ parts, v < q.volume) → ∃ r ∈ parts, r.volume = v := by
  induction parts generalizing expected with
  | nil => simp [missingPart]
  | cons h rest ih =>
    obtain ⟨before, order⟩ := pairwise_cons.mp order
    obtain ⟨start, above⟩ := forall_mem_cons.mp above
    obtain ⟨-, bounded⟩ := forall_mem_cons.mp bounded
    have next : ∀ p ∈ rest, nextVolume h.volume = h.volume + 1 := fun p later =>
      min_eq_left ((before p later).trans_le (bounded p later))
    have ih := @ih (nextVolume h.volume) order (fun p later => (next p later).trans_le (before p later)) bounded
    have parted : missingPart added expected (h :: rest) = none ↔
        (∀ v, added v = true → expected ≤ v → h.volume ≤ v) ∧ missingPart added (nextVolume h.volume) rest = none := by
      have gap : (range' expected (h.volume - expected)).find? added = none ↔
          ∀ v, added v = true → expected ≤ v → h.volume ≤ v := by
        simp only [find?_eq_none, mem_range'_1]
        grind
      rw [missingPart, ← gap]
      cases (range' expected (h.volume - expected)).find? added <;> simp
    rw [parted, ih]
    constructor
    · rintro ⟨clear, filled⟩ v there low ⟨q, member, high⟩
      rcases (clear v there low).eq_or_lt with rfl | beyond
      · exact ⟨h, mem_cons_self, rfl⟩
      · have later : q ∈ rest := by
          grind
        obtain ⟨r, found, same⟩ := filled v there ((next q later).trans_le beyond) ⟨q, later, high⟩
        exact ⟨r, mem_cons_of_mem h found, same⟩
    · intro filled
      refine ⟨fun v there low => ?_, fun v there low high => ?_⟩
      · by_contra below
        obtain ⟨r, member, same⟩ := filled v there low ⟨h, mem_cons_self, not_le.mp below⟩
        rcases mem_cons.mp member with rfl | later
        · exact below same.le
        · exact below (same ▸ (before r later).le)
      · obtain ⟨q, later, beyond⟩ := high
        have follows := next q later
        obtain ⟨r, member, same⟩ := filled v there (by omega) ⟨q, mem_cons_of_mem h later, beyond⟩
        rcases mem_cons.mp member with rfl | found
        · omega
        · exact ⟨r, found, same⟩

theorem chainMalformation_eq_none {added : Nat → Bool} (bounded : ∀ p ∈ parts, p.volume ≤ u32Max) :
    chainMalformation added parts = none ↔ WellFormed added parts := by
  cases parts with
  | nil => exact iff_of_true rfl ⟨nofun, nofun, nofun, fun _ _ _ impossible => nomatch impossible⟩
  | cons h rest =>
    have least := order.head_le
    have ends := (misplacedEnds_eq_none 0 h rest).trans ((and_iff_right (absurd rfl)).trans order.pairwise_iff)
    rw [Nat.zero_add] at ends
    have holes : missingPart added h.volume (h :: rest) = none ↔ ∀ v, added v = true → h.volume ≤ v →
        (∃ q ∈ h :: rest, v < q.volume) → ∃ r ∈ h :: rest, r.volume = v := missingPart_eq_none order least bounded
    have parted : chainMalformation added (h :: rest) = none ↔
        misplacedEnds rest.length 0 (h :: rest) = none ∧ ¬(h.splitBefore = true ∧ h.volume = 0) ∧
          missingPart added h.volume (h :: rest) = none := by
      rw [chainMalformation, length_cons, Nat.add_sub_cancel]
      cases misplacedEnds rest.length 0 (h :: rest) with
      | some reason => simp
      | none =>
        by_cases continued : h.splitBefore = true ∧ h.volume = 0 <;> simp [continued]
    rw [parted, ends, holes]
    constructor
    · rintro ⟨flags, first, filled⟩
      refine ⟨fun p one q two less => (flags q two p one less).1, fun p one q two less => (flags p one q two less).2, fun p member zero => ?_, fun v there p one q two low high => ?_⟩
      · have := least p member
        have same := order.unique mem_cons_self member (by omega : h.volume = p.volume)
        exact Bool.eq_false_of_not_eq_true fun continued => first ⟨same ▸ continued, by omega⟩
      · have := least p one
        exact filled v there (by omega) ⟨q, two, high⟩
    · intro formed
      refine ⟨fun p one q two less => ⟨formed.starts q two p one less, formed.ends p one q two less⟩, ?_, fun v there low high => ?_⟩
      · rintro ⟨continued, zero⟩
        exact Bool.false_ne_true ((formed.first h mem_cons_self zero).symm.trans continued)
      · obtain ⟨q, member, above⟩ := high
        by_cases own : h.volume = v
        · exact ⟨h, mem_cons_self, own⟩
        · exact formed.holes v there h mem_cons_self q member (by omega) above

end

end Rarpar.Unrar

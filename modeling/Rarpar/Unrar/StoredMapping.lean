import Rarpar.Unrar.StoredPass
import Mathlib.Data.List.Chain

namespace Rarpar.Unrar
open List MappedSlice

/-- Where one physical byte belongs. -/
inductive Destination (ι : Type)
  | member (memberIndex : ι) (logicalOffset : Nat)
  | encryptedMember (memberIndex : ι) (logicalOffset : Nat)
  | envelope
  | unroutable
deriving DecidableEq

/-- The byte of a member that a physical byte is routed to. -/
def Destination.target {ι : Type} : Destination ι → Option (ι × Nat)
  | member index offset | encryptedMember index offset => some (index, offset)
  | envelope | unroutable => none

namespace MappedSlice
variable {ι κ : Type}

def len : MappedSlice ι → Nat
  | member _ _ len | encryptedMember _ _ len | envelope len | unroutable len => len

/-- The bytes of a slice in physical order. -/
def bytes : MappedSlice ι → List (Destination ι)
  | member index offset len => (List.range len).map fun i => .member index (offset + i)
  | encryptedMember index offset len => (List.range len).map fun i => .encryptedMember index (offset + i)
  | envelope len => List.replicate len .envelope
  | unroutable len => List.replicate len .unroutable

def rename (f : ι → κ) : MappedSlice ι → MappedSlice κ
  | member index offset len => .member (f index) offset len
  | encryptedMember index offset len => .encryptedMember (f index) offset len
  | envelope len => .envelope len
  | unroutable len => .unroutable len

/-- The slices are not of the same kind outside of members. -/
def Apart : MappedSlice ι → MappedSlice ι → Prop
  | envelope _, envelope _ | unroutable _, unroutable _ => False
  | _, _ => True

@[simp] theorem length_bytes (slice : MappedSlice ι) : slice.bytes.length = slice.len := by
  cases slice <;> simp [bytes, len]

end MappedSlice

/-- The bytes of consecutive slices. -/
def bytesOf {ι : Type} (slices : List (MappedSlice ι)) : List (Destination ι) := slices.flatMap MappedSlice.bytes

theorem length_bytesOf {ι : Type} (slices : List (MappedSlice ι)) : (bytesOf slices).length = (slices.map (·.len)).sum := by
  rw [bytesOf, length_flatMap]
  simp only [length_bytes]

section Push
variable {ι κ : Type} {slices : List (MappedSlice ι)} {slice : MappedSlice ι}

theorem bytesOf_concat (front : List (MappedSlice ι)) (slice : MappedSlice ι) :
    bytesOf (front ++ [slice]) = bytesOf front ++ slice.bytes := by
  rw [bytesOf, flatMap_append, flatMap_singleton]
  rfl

/-- A pushed slice adds its bytes; merging loses none as long as the lengths fit. -/
theorem bytesOf_pushSlice (slice : MappedSlice ι) (fits : (bytesOf slices).length + slice.len ≤ u64Max) :
    bytesOf (pushSlice slices slice) = bytesOf slices ++ slice.bytes := by
  rcases eq_nil_or_concat' slices with rfl | ⟨front, last, rfl⟩
  · exact bytesOf_concat [] slice
  rw [bytesOf_concat, length_append, length_bytes] at fits
  have sum : saturatingAdd last.len slice.len = last.len + slice.len := min_eq_left (by omega)
  unfold pushSlice
  rw [getLast?_concat, dropLast_concat]
  split
  on_goal 3 => exact bytesOf_concat _ _
  all_goals
    rename_i len extra same
    obtain rfl := Option.some.inj same
    rw [bytesOf_concat, bytesOf_concat, append_assoc]
    refine congrArg (bytesOf front ++ ·) ?_
    rw [show saturatingAdd len extra = len + extra from sum]
    exact replicate_add _ _ _

theorem apart_replace {last last' : MappedSlice ι} {front : List (MappedSlice ι)}
    (same : ∀ s, MappedSlice.Apart s last → MappedSlice.Apart s last')
    (apart : (front ++ [last]).IsChain MappedSlice.Apart) : (front ++ [last']).IsChain MappedSlice.Apart := by
  obtain ⟨before, _, joint⟩ := isChain_append.mp apart
  grind [isChain_append.mpr, isChain_singleton]

/-- Pushing merges what would stand next to its own kind. -/
theorem isChain_pushSlice (apart : slices.IsChain MappedSlice.Apart) :
    (pushSlice slices slice).IsChain MappedSlice.Apart := by
  rcases eq_nil_or_concat' slices with rfl | ⟨front, last, rfl⟩
  · exact isChain_singleton slice
  unfold pushSlice
  rw [getLast?_concat, dropLast_concat]
  split
  on_goal 3 =>
    rename_i slice _ _ envelopes unroutables
    refine isChain_append.mpr ⟨apart, isChain_singleton slice, fun s end_ t first => ?_⟩
    rw [getLast?_concat] at end_
    obtain rfl := Option.some.inj end_
    obtain rfl := Option.some.inj first
    cases last <;> cases slice <;> first | exact trivial | skip
    · exact envelopes _ _ rfl rfl
    · exact unroutables _ _ rfl rfl
  all_goals
    rename_i len extra same
    obtain rfl := Option.some.inj same
    exact apart_replace (fun s kept => by cases s <;> exact kept) apart

theorem pushSlice_rename (f : ι → κ) (slices : List (MappedSlice ι)) (slice : MappedSlice ι) :
    (pushSlice slices slice).map (rename f) =
      pushSlice (slices.map (rename f)) (slice.rename f) := by
  rcases eq_nil_or_concat' slices with rfl | ⟨front, last, rfl⟩
  · cases slice <;> rfl
  unfold pushSlice
  rw [map_append, map_singleton, getLast?_concat, getLast?_concat, dropLast_concat,
    dropLast_concat]
  cases last <;> cases slice <;> simp [rename]

end Push

/-! ### What happens to one byte -/

/-- The values of a function from `start` up to `stop`. -/
def valuesOn {β : Type} (f : Nat → β) (start stop : Nat) : List β := (List.range' start (stop - start)).map f

section Values
variable {β : Type} {f g : Nat → β} {start middle stop : Nat}

theorem valuesOn_append (first : start ≤ middle) (second : middle ≤ stop) :
    valuesOn f start middle ++ valuesOn f middle stop = valuesOn f start stop := by
  have join := range'_append_1 (s := start) (m := middle - start) (n := stop - middle)
  grind [valuesOn]

theorem valuesOn_congr (same : ∀ x, start ≤ x → x < stop → f x = g x) : valuesOn f start stop = valuesOn g start stop :=
  map_congr_left fun x member => by
    rw [mem_range'_1] at member
    exact same x member.1 (by omega)

theorem valuesOn_const {b : β} (same : ∀ x, start ≤ x → x < stop → f x = b) :
    valuesOn f start stop = replicate (stop - start) b := by
  rw [valuesOn_congr same, valuesOn, map_const', length_range']

theorem valuesOn_empty (none_ : stop ≤ start) : valuesOn f start stop = [] := by
  rw [valuesOn, Nat.sub_eq_zero_of_le none_]
  rfl

theorem length_valuesOn : (valuesOn f start stop).length = stop - start := by
  rw [valuesOn, length_map, length_range']

theorem getElem?_valuesOn {i : Nat} (inside : start + i < stop) : (valuesOn f start stop)[i]? = some (f (start + i)) := by
  rw [valuesOn, getElem?_map, getElem?_range' (by omega), Nat.one_mul]
  rfl

end Values

namespace VolumeExtent
variable {ι : Type}

def covers (x : Nat) (extent : VolumeExtent ι) : Bool :=
  extent.dataOffset ≤ x && x < saturatingAdd extent.dataOffset extent.dataSize

variable {extent : VolumeExtent ι}

theorem covers_iff {x : Nat} :
    extent.covers x = true ↔ extent.dataOffset ≤ x ∧ x < saturatingAdd extent.dataOffset extent.dataSize := by
  simp only [covers, Bool.and_eq_true, decide_eq_true_eq]

end VolumeExtent

/-- How far bytes of the member are routed. -/
def StoredMember.limit (m : StoredMember) : Nat := m.packedExtent.getD u64Max

/-- Where the byte at the offset of a member belongs. -/
def StoredMember.destination {ι : Type} (m : StoredMember) (index : ι) : Option Nat → Destination ι
  | none => .unroutable
  | some l =>
    if l < m.limit then if m.eligibility.encryptedFacts.isSome then .encryptedMember index l else .member index l
    else .unroutable

/-- Where a byte inside an extent belongs. -/
def VolumeExtent.destination {ι : Type} (member : ι → Option StoredMember) (volume x : Nat) (extent : VolumeExtent ι) :
    Destination ι :=
  match (member extent.memberIndex).filter (·.eligibility.routesDirect) with
  | some m => m.destination extent.memberIndex (m.offsetAt volume (x - extent.dataOffset))
  | none => .envelope

/-- Where a byte of a volume belongs: the first extent over it decides. -/
def destination {ι : Type} (member : ι → Option StoredMember) (volume : Nat) (extents : List (VolumeExtent ι)) (x : Nat) :
    Destination ι :=
  match extents.find? (·.covers x) with
  | some extent => extent.destination member volume x
  | none => .envelope

section Runs
variable {ι : Type} {member : ι → Option StoredMember} {volume : Nat} {slices : List (MappedSlice ι)} {extent : VolumeExtent ι}
  {m : StoredMember}

theorem offsetAt_add (m : StoredMember) (volume into i : Nat) :
    m.offsetAt volume (into + i) = (m.offsetAt volume into).bind (checkedAdd · i) := by
  unfold StoredMember.offsetAt
  cases (m.parts.find? (·.volume = volume)).bind (·.logicalOffset) with
  | none => rfl
  | some b =>
    simp only [Option.bind_some, checkedAdd]
    by_cases whole : b + (into + i) ≤ u64Max
    · rw [if_pos whole, if_pos (by omega), Option.bind_some, if_pos (by omega), Nat.add_assoc]
    · grind

theorem bytesOf_pushMemberRun (index : ι) {offset : Option Nat} {runLen : Nat} (bounded : m.limit ≤ u64Max)
    (fits : (bytesOf slices).length + runLen ≤ u64Max) :
    bytesOf (pushMemberRun slices index m.packedExtent m.eligibility.encryptedFacts.isSome offset runLen) =
      bytesOf slices ++ (range runLen).map fun i => m.destination index (offset.bind (checkedAdd · i)) := by
  -- where nothing of the run is routed
  have dark (none_ : ∀ i < runLen, m.destination index (offset.bind (checkedAdd · i)) = .unroutable) :
      bytesOf (pushSlice slices (.unroutable runLen)) =
        bytesOf slices ++ (range runLen).map fun i => m.destination index (offset.bind (checkedAdd · i)) := by
    rw [bytesOf_pushSlice _ fits, bytes]
    refine congrArg (bytesOf slices ++ ·) ?_
    rw [map_congr_left fun i member => none_ i (mem_range.mp member), map_const', length_range]
  unfold pushMemberRun
  cases offset with
  | none => exact dark fun _ _ => rfl
  | some l =>
    have beyond {i : Nat} (past : m.limit ≤ l + i) :
        m.destination index ((some l).bind (checkedAdd · i)) = .unroutable := by
      rw [Option.bind_some, checkedAdd]
      split
      · exact if_neg (by omega)
      · rfl
    simp only [Option.map_some, show m.packedExtent.getD u64Max = m.limit from rfl]
    by_cases some_ : 0 < min runLen (m.limit - l)
    · rw [Option.filter_some, if_pos (by simpa using some_)]
      dsimp only
      generalize length : min runLen (m.limit - l) = len at some_
      generalize shape : ite (m.eligibility.encryptedFacts.isSome = true) _ _ = piece
      have routed : (range len).map (fun i => m.destination index ((some l).bind (checkedAdd · i))) = piece.bytes := by
        have at_ (i : Nat) (below : i < len) : m.destination index ((some l).bind (checkedAdd · i)) =
            if m.eligibility.encryptedFacts.isSome then .encryptedMember index (l + i) else .member index (l + i) := by
          rw [Option.bind_some, checkedAdd, if_pos (by omega)]
          exact if_pos (by omega)
        rw [map_congr_left fun i member => at_ i (mem_range.mp member), ← shape]
        split <;> rfl
      have size : piece.len = len := by
        rw [← shape]
        split <;> rfl
      have head := bytesOf_pushSlice piece (show (bytesOf slices).length + _ ≤ u64Max by omega)
      by_cases short : len < runLen
      · rw [if_pos short, bytesOf_pushSlice, head, ← routed, append_assoc]
        · refine congrArg (bytesOf slices ++ ·) ?_
          have split : runLen = len + (runLen - len) := by omega
          conv_rhs => rw [split, range_add, map_append, map_map]
          refine congrArg (_ ++ ·) ?_
          rw [map_congr_left (g := fun _ => Destination.unroutable) fun i _ => ?_, map_const', length_range]
          · rfl
          · exact beyond (show m.limit ≤ l + (len + i) by omega)
        · rw [head, length_append, length_bytes, size]
          show _ + (runLen - len) ≤ _
          omega
      · grind
    · rw [Option.filter_some, if_neg (by simpa using some_)]
      exact dark fun i below => beyond (by omega)

/-- A run inside an extent routes each of its bytes as that byte's own. -/
theorem bytesOf_pushRun (member : ι → Option StoredMember) (volume stop : Nat) {cursor : Nat} (slices : List (MappedSlice ι))
    (bounded : ∀ m, member extent.memberIndex = some m → m.eligibility.routesDirect = true → m.limit ≤ u64Max)
    (inside : extent.dataOffset ≤ cursor) (fits : (bytesOf slices).length + (stop - cursor) ≤ u64Max) :
    bytesOf (pushRun member volume cursor (stop - cursor) extent slices) =
      bytesOf slices ++ valuesOn (fun x => extent.destination member volume x) cursor stop := by
  unfold pushRun VolumeExtent.destination
  cases owner : (member extent.memberIndex).filter (·.eligibility.routesDirect) with
  | none =>
    rw [bytesOf_pushSlice _ fits, valuesOn_const (b := Destination.envelope) fun _ _ _ => rfl]
    rfl
  | some m =>
    obtain ⟨known, routes⟩ := Option.filter_eq_some_iff.mp owner
    rw [bytesOf_pushMemberRun _ (bounded m known routes) fits, valuesOn, range'_eq_map_range,
      map_map]
    refine congrArg (bytesOf slices ++ ·) (map_congr_left fun i _ => ?_)
    rw [Function.comp_apply, ← offsetAt_add, show cursor + i - extent.dataOffset = cursor - extent.dataOffset + i by omega]

theorem isChain_pushRun {cursor runLen : Nat} (apart : slices.IsChain MappedSlice.Apart) :
    (pushRun member volume cursor runLen extent slices).IsChain MappedSlice.Apart := by
  unfold pushRun
  split
  · unfold pushMemberRun
    dsimp only
    split
    · exact isChain_pushSlice apart
    · split
      · exact isChain_pushSlice (isChain_pushSlice apart)
      · exact isChain_pushSlice apart
  · exact isChain_pushSlice apart

end Runs

section Extents
variable {ι κ : Type} {member : ι → Option StoredMember} {volume stop : Nat} {extents : List (VolumeExtent ι)}
  {member' : κ → Option StoredMember} {slices : List (MappedSlice ι)} {rest : List (VolumeExtent ι)}

theorem destination_cons_of_not {x : Nat}
    (outside : ¬extent.covers x = true) : destination member volume (extent :: rest) x = destination member volume rest x := by
  rw [destination, find?_cons_of_neg outside]
  rfl

theorem destination_cons_of_covers {x : Nat}
    (inside : extent.covers x = true) : destination member volume (extent :: rest) x = extent.destination member volume x := by
  rw [destination, find?_cons_of_pos inside]

/-- Before the first extent there is only envelope. -/
theorem destination_before {x : Nat} (before : ∀ extent ∈ extents, x < extent.dataOffset) :
    destination member volume extents x = .envelope := by
  have none_ : extents.find? (·.covers x) = none := find?_eq_none.mpr fun extent there covered => by
    have := before extent there
    have := (VolumeExtent.covers_iff.mp covered).1
    omega
  rw [destination, none_]

theorem bytesOf_pushEnvelope {f : Nat → Destination ι} {cursor : Nat}
    (fits : (bytesOf slices).length + (stop - cursor) ≤ u64Max) (all : ∀ x, cursor ≤ x → x < stop → f x = .envelope) :
    bytesOf (pushSlice slices (.envelope (stop - cursor))) = bytesOf slices ++ valuesOn f cursor stop := by
  rw [bytesOf_pushSlice _ fits, valuesOn_const all]
  rfl

/-- The loop gives every byte up to `stop` its own destination. -/
theorem bytesOf_mapExtents (volume : Nat) (sorted : extents.Pairwise fun a b => a.dataOffset ≤ b.dataOffset)
    (bounded : ∀ index m, member index = some m → m.eligibility.routesDirect = true → m.limit ≤ u64Max)
    (small : stop ≤ u64Max) (cursor : Nat) (slices : List (MappedSlice ι))
    (fits : (bytesOf slices).length + (stop - cursor) ≤ u64Max) :
    bytesOf (mapExtents member volume stop extents cursor slices) =
      bytesOf slices ++ valuesOn (destination member volume extents) cursor stop := by
  induction extents generalizing cursor slices with
  | nil =>
    rw [mapExtents]
    split
    · exact bytesOf_pushEnvelope fits fun _ _ _ => rfl
    · rw [valuesOn_empty (by omega), append_nil]
  | cons extent rest ih =>
    obtain ⟨before, sorted⟩ := pairwise_cons.mp sorted
    -- an extent that ends at or before the cursor is passed over
    have skip (outside : ∀ x, cursor ≤ x → ¬extent.covers x = true) :
        bytesOf (mapExtents member volume stop rest cursor slices) =
          bytesOf slices ++ valuesOn (destination member volume (extent :: rest)) cursor stop := by
      rw [ih sorted _ _ fits, valuesOn_congr fun x low _ => (destination_cons_of_not (outside x low)).symm]
    rw [mapExtents]
    split
    · rw [valuesOn_empty (by omega), append_nil]
    split
    · rename_i empty
      refine skip fun x _ covered => ?_
      have := VolumeExtent.covers_iff.mp covered
      have : saturatingAdd extent.dataOffset extent.dataSize ≤ extent.dataOffset := by
        rw [empty]
        exact min_le_left _ _
      omega
    dsimp only
    split
    · rename_i passed
      refine skip fun x low covered => ?_
      have := VolumeExtent.covers_iff.mp covered
      omega
    rename_i running nonempty reaches
    split
    · rename_i late
      refine bytesOf_pushEnvelope fits fun x _ high => destination_before fun other there => ?_
      rcases mem_cons.mp there with rfl | later
      · omega
      · have := before other later
        omega
    have ordered : extent.dataOffset ≤ saturatingAdd extent.dataOffset extent.dataSize :=
      le_min (Nat.le_add_right _ _) (by omega)
    generalize reached : saturatingAdd extent.dataOffset extent.dataSize = extentEnd at reaches ordered ⊢
    -- the gap before the extent, its run, and the rest
    have gap : bytesOf (if extent.dataOffset > cursor then pushSlice slices (.envelope (extent.dataOffset - cursor)) else slices) =
        bytesOf slices ++ valuesOn (destination member volume (extent :: rest)) cursor (max cursor extent.dataOffset) := by
      split_ifs with ahead
      · rw [max_eq_right (le_of_lt ahead)]
        refine bytesOf_pushEnvelope (by omega) fun x _ high => destination_before fun other there => ?_
        rcases mem_cons.mp there with rfl | later
        · exact high
        · exact high.trans_le (before other later)
      · rw [max_eq_left (by omega), valuesOn_empty le_rfl, append_nil]
    generalize ite (extent.dataOffset > cursor) _ _ = front at gap ⊢
    have length := congrArg length gap
    rw [length_append, length_valuesOn] at length
    have run := bytesOf_pushRun member volume (min extentEnd stop) front (bounded extent.memberIndex) (le_max_right cursor _) (by omega)
    have own : valuesOn (fun x => extent.destination member volume x) _ _ =
        valuesOn (destination member volume (extent :: rest)) (max cursor extent.dataOffset) (min extentEnd stop) :=
      valuesOn_congr fun x low high =>
        (destination_cons_of_covers (VolumeExtent.covers_iff.mpr ⟨by omega, by omega⟩)).symm
    have after : valuesOn _ _ stop =
        valuesOn (destination member volume (extent :: rest)) (min extentEnd stop) stop :=
      valuesOn_congr fun x low high => (destination_cons_of_not fun covered => by
        have := VolumeExtent.covers_iff.mp covered
        omega).symm
    rw [ih sorted, run, gap, own, after, append_assoc, append_assoc, valuesOn_append (by omega) (by omega),
      valuesOn_append (by omega) (by omega)]
    rw [run, length_append, length, length_valuesOn]
    omega

theorem isChain_mapExtents {cursor : Nat} (apart : slices.IsChain MappedSlice.Apart) :
    (mapExtents member volume stop extents cursor slices).IsChain MappedSlice.Apart := by
  induction extents generalizing cursor slices with
  | nil =>
    rw [mapExtents]
    split
    · exact isChain_pushSlice apart
    · exact apart
  | cons extent rest ih =>
    rw [mapExtents]
    split
    · exact apart
    split
    · exact ih apart
    dsimp only
    split
    · exact ih apart
    split
    · exact isChain_pushSlice apart
    refine ih (isChain_pushRun ?_)
    split
    · exact isChain_pushSlice apart
    · exact apart

/-! ### Members under other names -/

theorem pushRun_rename (f : ι → κ)
    (same : (member' (f extent.memberIndex)).filter (·.eligibility.routesDirect) =
      (member extent.memberIndex).filter (·.eligibility.routesDirect))
    (cursor runLen : Nat) (slices : List (MappedSlice ι)) :
    (pushRun member volume cursor runLen extent slices).map (rename f) =
      pushRun member' volume cursor runLen (extent.map f) (slices.map (rename f)) := by
  unfold pushRun
  rw [show (extent.map f).memberIndex = f extent.memberIndex from rfl, same]
  cases (member extent.memberIndex).filter (·.eligibility.routesDirect) with
  | none => exact pushSlice_rename f _ _
  | some m =>
    unfold pushMemberRun
    dsimp only
    rw [show (extent.map f).dataOffset = extent.dataOffset from rfl]
    split
    · exact pushSlice_rename f _ _
    · split
      · rw [pushSlice_rename, pushSlice_rename]
        split <;> rfl
      · rw [pushSlice_rename]
        split <;> rfl

theorem mapExtents_rename (f : ι → κ)
    (same : ∀ extent ∈ extents, (member' (f extent.memberIndex)).filter (·.eligibility.routesDirect) =
      (member extent.memberIndex).filter (·.eligibility.routesDirect))
    (cursor : Nat) (slices : List (MappedSlice ι)) :
    (mapExtents member volume stop extents cursor slices).map (rename f) =
      mapExtents member' volume stop (extents.map (VolumeExtent.map f)) cursor (slices.map (rename f)) := by
  induction extents generalizing cursor slices with
  | nil =>
    rw [map_nil, mapExtents, mapExtents]
    split
    · exact pushSlice_rename f _ _
    · rfl
  | cons extent rest ih =>
    have later := ih fun other there => same other (mem_cons_of_mem extent there)
    have size : (extent.map f).dataSize = extent.dataSize := rfl
    have offset : (extent.map f).dataOffset = extent.dataOffset := rfl
    rw [map_cons, mapExtents, mapExtents]
    simp only [size, offset]
    split_ifs
    · rfl
    · exact later _ _
    · exact later _ _
    · exact pushSlice_rename f _ _
    · rw [later, pushRun_rename f (same extent mem_cons_self), pushSlice_rename]
      rfl
    · rw [later, pushRun_rename f (same extent mem_cons_self)]

end Extents

end Rarpar.Unrar

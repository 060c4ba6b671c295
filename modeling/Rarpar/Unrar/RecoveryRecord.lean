import Rarpar.Unrar.BitRead
import Rarpar.Unrar.StoredLayout

namespace Rarpar.Unrar
open List

/-! What the two kinds of recovery record share: what an examination of a volume reports, and how rebuilt bytes are written. -/

structure RecoveryRecordLayout where
  format : ArchiveFormat
  protectedSize : Nat
  recordOffset : Nat
  recordSize : Nat
  unitSize : Nat
  dataUnits : Nat
  parityUnits : Nat
  foundByScan : Bool
deriving DecidableEq

structure RecoveryRecordAssessment where
  layout : RecoveryRecordLayout
  damagedUnits : List Nat
  unrepairableUnits : List Nat
  damagedParity : List Nat
  damagedChecksums : List Nat
  uncheckedBytes : Nat
deriving DecidableEq

def RecoveryRecordAssessment.isRepairable (a : RecoveryRecordAssessment) : Bool := a.unrepairableUnits.isEmpty

structure RecoveryRecordPatch where
  unit : Nat
  offset : Nat
  bytes : List UInt8
deriving DecidableEq

structure Examination where
  assessment : RecoveryRecordAssessment
  patches : List RecoveryRecordPatch
deriving DecidableEq

def Examination.new (layout : RecoveryRecordLayout) : Examination := ⟨⟨layout, [], [], [], [], 0⟩, []⟩

/-- Sort the lists of an examination, as its front end does. -/
def Examination.sorted (e : Examination) : Examination where
  assessment := { e.assessment with
    damagedUnits := e.assessment.damagedUnits.insertionSort (· ≤ ·)
    unrepairableUnits := e.assessment.unrepairableUnits.insertionSort (· ≤ ·)
    damagedParity := e.assessment.damagedParity.insertionSort (· ≤ ·)
    damagedChecksums := e.assessment.damagedChecksums.insertionSort (· ≤ ·) }
  patches := e.patches.insertionSort (·.offset ≤ ·.offset)

/-- The findings of one examination behind those of another. -/
def Examination.add (a b : Examination) : Examination where
  assessment := { a.assessment with
    damagedUnits := a.assessment.damagedUnits ++ b.assessment.damagedUnits
    unrepairableUnits := a.assessment.unrepairableUnits ++ b.assessment.unrepairableUnits
    damagedParity := a.assessment.damagedParity ++ b.assessment.damagedParity
    damagedChecksums := a.assessment.damagedChecksums ++ b.assessment.damagedChecksums }
  patches := a.patches ++ b.patches

/-- The findings for these keys, one behind the other. -/
def Examination.gather (layout : RecoveryRecordLayout) (findings : Nat → Examination) (keys : List Nat) : Examination where
  assessment :=
    { layout := layout
      damagedUnits := keys.flatMap fun key => (findings key).assessment.damagedUnits
      unrepairableUnits := keys.flatMap fun key => (findings key).assessment.unrepairableUnits
      damagedParity := keys.flatMap fun key => (findings key).assessment.damagedParity
      damagedChecksums := keys.flatMap fun key => (findings key).assessment.damagedChecksums
      uncheckedBytes := 0 }
  patches := keys.flatMap fun key => (findings key).patches

/-- The same findings in some order. -/
structure Examination.Similar (a b : Examination) : Prop where
  layout : a.assessment.layout = b.assessment.layout
  unchecked : a.assessment.uncheckedBytes = b.assessment.uncheckedBytes
  units : a.assessment.damagedUnits.Perm b.assessment.damagedUnits
  unrepairable : a.assessment.unrepairableUnits.Perm b.assessment.unrepairableUnits
  parity : a.assessment.damagedParity.Perm b.assessment.damagedParity
  checksums : a.assessment.damagedChecksums.Perm b.assessment.damagedChecksums
  patches : a.patches.Perm b.patches

namespace Examination
variable {a b c d : Examination}

theorem Similar.refl (a : Examination) : a.Similar a := ⟨rfl, rfl, .refl _, .refl _, .refl _, .refl _, .refl _⟩

theorem Similar.symm (h : a.Similar b) : b.Similar a :=
  ⟨h.layout.symm, h.unchecked.symm, h.units.symm, h.unrepairable.symm, h.parity.symm, h.checksums.symm, h.patches.symm⟩

theorem Similar.trans (h : a.Similar b) (h' : b.Similar c) : a.Similar c :=
  ⟨h.layout.trans h'.layout, h.unchecked.trans h'.unchecked, h.units.trans h'.units, h.unrepairable.trans h'.unrepairable,
    h.parity.trans h'.parity, h.checksums.trans h'.checksums, h.patches.trans h'.patches⟩

theorem Similar.add (h : a.Similar b) (h' : c.Similar d) : (a.add c).Similar (b.add d) :=
  ⟨h.layout, h.unchecked, h.units.append h'.units, h.unrepairable.append h'.unrepairable, h.parity.append h'.parity,
    h.checksums.append h'.checksums, h.patches.append h'.patches⟩

theorem add_assoc (a b c : Examination) : (a.add b).add c = a.add (b.add c) := by
  simp only [Examination.add, append_assoc]

variable {layout : RecoveryRecordLayout} {findings : Nat → Examination}

theorem add_gather_nil (a : Examination) : a.add (gather layout findings []) = a := by
  simp only [Examination.add, gather, flatMap_nil, append_nil]

theorem gather_append (keys keys' : List Nat) :
    (gather layout findings keys).add (gather layout findings keys') = gather layout findings (keys ++ keys') := by
  simp only [Examination.add, gather, flatMap_append]

theorem foldl_add (keys : List Nat) (a : Examination) :
    keys.foldl (fun a key => a.add (findings key)) a = a.add (gather layout findings keys) := by
  induction keys generalizing a with
  | nil => exact (add_gather_nil a).symm
  | cons key rest ih =>
    rw [foldl_cons, ih, add_assoc]
    rfl

/-- Sorting brings the same findings into the same order, if an offset tells the patch. -/
theorem Similar.sorted_eq (h : a.Similar b) (told : ∀ p ∈ a.patches, ∀ q ∈ a.patches, p.offset = q.offset → p = q) :
    a.sorted = b.sorted := by
  have numbers {l l' : List Nat} (perm : l.Perm l') : l.insertionSort (· ≤ ·) = l'.insertionSort (· ≤ ·) :=
    List.Perm.eq_of_pairwise' (pairwise_insertionSort _ _) (pairwise_insertionSort _ _)
      ((perm_insertionSort _ _).trans (perm.trans (perm_insertionSort _ _).symm))
  have patches : a.patches.insertionSort (·.offset ≤ ·.offset) = b.patches.insertionSort (·.offset ≤ ·.offset) := by
    refine List.Perm.eq_of_pairwise (fun p q first second low high => ?_) (pairwise_insertionSort _ _)
      (pairwise_insertionSort _ _) ((perm_insertionSort _ _).trans (h.patches.trans (perm_insertionSort _ _).symm))
    exact told p ((mem_insertionSort _).mp first) q (h.patches.mem_iff.mpr ((mem_insertionSort _).mp second))
      (Nat.le_antisymm low high)
  dsimp only [Examination.sorted]
  rw [h.layout, h.unchecked, numbers h.units, numbers h.unrepairable, numbers h.parity, numbers h.checksums, patches]

end Examination

/-- Read bytes at a position. -/
def readExactAt (volume : List UInt8) (pos len : Nat) : Except RarError (List UInt8) :=
  if pos + len ≤ volume.length then .ok ((volume.drop pos).take len) else .error .unexpectedEof

/-! ### Writing rebuilt bytes -/

/-- Seek and write: the bytes go over what stands there, and past the end they extend the file. -/
def writeAt (volume : List UInt8) (pos : Nat) (bytes : List UInt8) : List UInt8 :=
  volume.take pos ++ List.replicate (pos - volume.length) 0 ++ bytes ++ volume.drop (pos + bytes.length)

/-- `RecoveryRecordRepair::write_in_place`. -/
def writeInPlace (patches : List RecoveryRecordPatch) (volume : List UInt8) : List UInt8 :=
  patches.foldl (fun volume patch => writeAt volume patch.offset patch.bytes) volume

/-- The loop of `write_repaired_copy` from a position on, with the output before it. -/
def copyFrom (volume : List UInt8) : List RecoveryRecordPatch → Nat → List UInt8 → Except RarError (List UInt8 × Nat)
  | [], pos, output =>
    let rest := volume.drop pos
    .ok (output ++ rest, pos + rest.length)
  | patch :: rest, pos, output =>
    if patch.offset < pos then .error (.internal "recovery record patches overlap or are out of order")
    else
      let gap := patch.offset - pos
      let copied := (volume.drop pos).take gap
      if copied.length ≠ gap then .error .unexpectedEof
      else copyFrom volume rest (patch.offset + patch.bytes.length) (output ++ copied ++ patch.bytes)

/-- `RecoveryRecordRepair::write_repaired_copy`: the output and the bytes written. -/
def writeRepairedCopy (patches : List RecoveryRecordPatch) (volume : List UInt8) : Except RarError (List UInt8 × Nat) :=
  copyFrom volume patches 0 []

/-! ### Both ways of writing give the same bytes -/

/-- Patches in ascending order that lie apart inside the first bytes of a volume. -/
def Ascending (limit : Nat) : Nat → List RecoveryRecordPatch → Prop
  | _, [] => True
  | pos, patch :: rest => pos ≤ patch.offset ∧ patch.offset + patch.bytes.length ≤ limit ∧
      Ascending limit (patch.offset + patch.bytes.length) rest

variable {pos : Nat}

section
variable {volume bytes : List UInt8} (inside : pos + bytes.length ≤ volume.length)
include inside

theorem length_writeAt : (writeAt volume pos bytes).length = volume.length := by
  unfold writeAt
  simp only [length_append, length_take, length_replicate, length_drop]
  omega

/-- What stands at a position after a write. -/
theorem getElem?_writeAt (i : Nat) :
    (writeAt volume pos bytes)[i]? = if pos ≤ i ∧ i < pos + bytes.length then bytes[i - pos]? else volume[i]? := by
  have taken : (volume.take pos).length = pos := by
    rw [length_take]
    omega
  unfold writeAt
  rw [show pos - volume.length = 0 by omega, replicate_zero, append_nil]
  by_cases before : i < pos
  · rw [append_assoc, getElem?_append_left (by omega), getElem?_take_of_lt before, if_neg (by omega)]
  rw [append_assoc, getElem?_append_right (by omega), taken]
  by_cases within : i < pos + bytes.length
  · rw [getElem?_append_left (by omega), if_pos ⟨by omega, within⟩]
  · grind

theorem writeAt_take {keep : Nat}
    (after : pos + bytes.length ≤ keep) : (writeAt volume pos bytes).drop keep = volume.drop keep := by
  refine ext_getElem? fun i => ?_
  rw [getElem?_drop, getElem?_drop, getElem?_writeAt inside, if_neg (by omega)]

end

variable {patches : List RecoveryRecordPatch} {volume : List UInt8} {limit : Nat} {patch : RecoveryRecordPatch}

/-- Copying from a position on, after the patches before it were written in place. -/
theorem copyFrom_eq {output : List UInt8} {done : List UInt8}
    (ascending : Ascending volume.length pos patches) (inside : pos ≤ volume.length) (length : done.length = volume.length)
    (written : done.take pos = output) (untouched : done.drop pos = volume.drop pos) :
    copyFrom volume patches pos output = .ok (writeInPlace patches done, volume.length) := by
  induction patches generalizing pos output done with
  | nil =>
    unfold copyFrom
    dsimp only
    rw [← written, ← untouched, take_append_drop, length_drop, length]
    refine congrArg Except.ok (Prod.ext rfl ?_)
    omega
  | cons patch rest ih =>
    obtain ⟨order, fits, later⟩ := ascending
    have copied : ((volume.drop pos).take (patch.offset - pos)).length = patch.offset - pos := by
      grind
    rw [copyFrom, if_neg (by omega)]
    rw [if_neg (not_not.mpr copied)]
    have fits' : patch.offset + patch.bytes.length ≤ done.length := by omega
    refine ih later (by omega) ((length_writeAt fits').trans length) ?_ ?_
    · -- the bytes up to the end of the patch: what was written, the gap and the patch
      dsimp only [writeAt]
      rw [show patch.offset - done.length = 0 by omega, replicate_zero, append_nil, ← written, ← untouched]
      have gap : done.take pos ++ (done.drop pos).take (patch.offset - pos) = done.take patch.offset := by
        rw [← take_add]
        congr 1
        omega
      rw [gap, take_append_of_le_length]
      · grind
      · grind
    · rw [writeAt_take fits' (Nat.le_refl _)]
      have step := congrArg (drop (patch.offset + patch.bytes.length - pos)) untouched
      rw [drop_drop, drop_drop, show pos + (patch.offset + patch.bytes.length - pos) =
        patch.offset + patch.bytes.length by omega] at step
      exact step

section
variable (ascending : Ascending limit pos patches)
include ascending

/-- Positions outside the patches keep their bytes. -/
theorem getElem?_writeInPlace_of_not {i : Nat}
    (inside : limit ≤ volume.length)
    (outside : ∀ patch ∈ patches, ¬ (patch.offset ≤ i ∧ i < patch.offset + patch.bytes.length)) :
    (writeInPlace patches volume)[i]? = volume[i]? := by
  induction patches generalizing volume pos with
  | nil => rfl
  | cons patch rest ih =>
    obtain ⟨_, fits, later⟩ := ascending
    have fits' : patch.offset + patch.bytes.length ≤ volume.length := by omega
    have kept := ih later (by rw [length_writeAt fits']; exact inside) fun other member =>
      outside other (mem_cons_of_mem _ member)
    rw [getElem?_writeAt fits', if_neg (outside patch mem_cons_self)] at kept
    exact kept

theorem Ascending.le_offset (member : patch ∈ patches) : pos ≤ patch.offset := by
  induction patches generalizing pos with
  | nil => cases member
  | cons first rest ih =>
    obtain ⟨order, _, later⟩ := ascending
    rcases mem_cons.mp member with rfl | member
    · exact order
    · grind

theorem Ascending.mono {limit' : Nat} (wider : limit ≤ limit') : Ascending limit' pos patches := by
  induction patches generalizing pos with
  | nil => trivial
  | cons patch rest ih =>
    obtain ⟨order, fits, later⟩ := ascending
    exact ⟨order, fits.trans wider, ih later⟩

/-- Positions in a patch get its bytes. -/
theorem getElem?_writeInPlace_of_mem {i : Nat}
    (inside : limit ≤ volume.length)
    (member : patch ∈ patches) (here : patch.offset ≤ i ∧ i < patch.offset + patch.bytes.length) :
    (writeInPlace patches volume)[i]? = patch.bytes[i - patch.offset]? := by
  induction patches generalizing volume pos with
  | nil => cases member
  | cons first rest ih =>
    obtain ⟨_, fits, later⟩ := ascending
    have fits' : first.offset + first.bytes.length ≤ volume.length := by omega
    have length := length_writeAt fits'
    rcases mem_cons.mp member with rfl | member
    · have kept := getElem?_writeInPlace_of_not later (length.symm ▸ inside) fun other member => by
        have beyond := later.le_offset member
        show ¬ (other.offset ≤ i ∧ i < other.offset + other.bytes.length)
        omega
      rw [getElem?_writeAt fits', if_pos here] at kept
      exact kept
    · exact ih later (length.symm ▸ inside) member

theorem length_writeInPlace (inside : limit ≤ volume.length) :
    (writeInPlace patches volume).length = volume.length := by
  induction patches generalizing volume pos with
  | nil => rfl
  | cons patch rest ih =>
    obtain ⟨_, fits, later⟩ := ascending
    have length := length_writeAt (show patch.offset + patch.bytes.length ≤ volume.length by omega)
    exact (ih later (length.symm ▸ inside)).trans length

end

/-- Patches that lie one behind the other. -/
theorem ascending_of_pairwise
    (apart : patches.Pairwise fun p q => p.offset + p.bytes.length ≤ q.offset) (after : ∀ patch ∈ patches, pos ≤ patch.offset)
    (inside : ∀ patch ∈ patches, patch.offset + patch.bytes.length ≤ limit) : Ascending limit pos patches := by
  induction patches generalizing pos with
  | nil => trivial
  | cons patch rest ih =>
    obtain ⟨first, apart⟩ := pairwise_cons.mp apart
    exact ⟨after patch mem_cons_self, inside patch mem_cons_self,
      ih apart first fun other member => inside other (mem_cons_of_mem _ member)⟩

/-- A repaired copy holds the bytes that writing in place leaves. -/
theorem writeRepairedCopy_eq (ascending : Ascending volume.length 0 patches) :
    writeRepairedCopy patches volume = .ok (writeInPlace patches volume, volume.length) :=
  copyFrom_eq ascending (Nat.zero_le _) rfl rfl rfl

end Rarpar.Unrar

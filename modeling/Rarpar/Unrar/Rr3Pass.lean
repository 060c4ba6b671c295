import Mathlib.Data.List.Sort
import Rarpar.Unrar.Rr3

namespace Rarpar.Unrar.Rr3
open List

/-! ### What a volume holds under a record -/

section Contents
variable (volume : List UInt8) (record : Record)

/-- A protected sector, with zeros past the protected bytes. -/
def sectorOf (index : Nat) : Sector := Vector.ofFn fun j =>
  if index * sectorLen + j.val < record.headerOffset then volume.getD (index * sectorLen + j.val) 0 else 0

def storedOf (index : Nat) : UInt16 :=
  .ofNat ((volume.getD (record.checksumAt index) 0).toNat + 256 * (volume.getD (record.checksumAt index + 1) 0).toNat)

def parityOf (slot : Nat) : Sector := Vector.ofFn fun j => volume.getD (record.parityAt slot + j.val) 0

end Contents

/-- The positions of the bytes that were read, in order. -/
def bytesRead (reads : List (Nat × Nat)) : List Nat := reads.flatMap fun read => List.range' read.1 read.2

theorem bytesRead_append (first second : List (Nat × Nat)) : bytesRead (first ++ second) = bytesRead first ++ bytesRead second :=
  flatMap_append

theorem range'_join {a m b n : Nat} (next : a + m = b ∨ n = 0) : range' a m ++ range' b n = range' a (m + n) := by
  rcases next with rfl | rfl
  · exact range'_append_1
  · rw [range'_zero, append_nil, Nat.add_zero]

/-- The positions of the protected bytes of a sector. -/
def sectorBytes (record : Record) (index : Nat) : List Nat :=
  List.range' (index * 512) (min ((index + 1) * 512) record.headerOffset - index * 512)

theorem flatMap_sectorBytes (record : Record) (index count : Nat) : (range' index count).flatMap (sectorBytes record) =
    range' (index * 512) (min ((index + count) * 512) record.headerOffset - index * 512) := by
  induction count with
  | zero =>
    rw [show min _ record.headerOffset - index * 512 = 0 by omega]
    rfl
  | succ count ih =>
    rw [range'_1_concat, flatMap_append, ih, flatMap_singleton, sectorBytes]
    rw [range'_join (by omega)]
    exact congrArg (range' _) (by omega)

theorem readExactAt_eq {volume : List UInt8} {pos len : Nat} (inside : pos + len ≤ volume.length) :
    readExactAt volume pos len = .ok ((volume.drop pos).take len) := if_pos inside

theorem getD_read {volume : List UInt8} {pos len j : Nat} (inside : j < len) :
    ((volume.drop pos).take len).getD j 0 = volume.getD (pos + j) 0 := by
  rw [getD_eq_getElem?_getD, getElem?_take_of_lt inside, getElem?_drop, getD_eq_getElem?_getD]

namespace Record
variable {volume : List UInt8} {record : Record}

/-- The last sector begins inside the protected bytes. -/
theorem sector_begins {index : Nat} (inside : index < record.sectors) : index * 512 < record.headerOffset := by
  have count := record.sectors_eq
  simp only [sectorLen] at count
  omega

theorem protected_le (record : Record) : record.headerOffset ≤ record.sectors * 512 := by
  have count := record.sectors_eq
  simp only [sectorLen] at count
  omega

variable (fits : record.Fits volume.length)
include fits

theorem protected_inside : record.headerOffset ≤ volume.length := by
  have before := record.header_before
  unfold Fits at fits
  omega

/-- A block of sectors as `for_each` reads it. -/
theorem sectorIn_block {index count held k : Nat}
    (length : held = min ((index + count) * 512) record.headerOffset - index * 512) (below : k < count) :
    sectorIn ((volume.drop (index * 512)).take held ++ replicate (count * 512 - held) 0) k =
      sectorOf volume record (index + k) := by
  have bytes := protected_inside fits
  have covers (j : Nat) (small : j < 512) : k * 512 + j < held ↔ (index + k) * 512 + j < record.headerOffset := by omega
  have place (j : Nat) : index * 512 + (k * 512 + j) = (index + k) * 512 + j := by omega
  have taken : ((volume.drop (index * 512)).take held).length = held := by
    rw [length_take, length_drop]
    omega
  refine Vector.ext fun j small => ?_
  simp only [sectorIn, sectorOf, Vector.getElem_ofFn, sectorLen]
  by_cases first : k * 512 + j < held
  · rw [getD_append _ _ _ _ (first.trans_eq taken.symm), getD_read first, if_pos ((covers j small).mp first), place]
  · rw [getD_append_right _ _ _ _ (taken.trans_le (Nat.le_of_not_lt first)), if_neg (mt (covers j small).mpr first),
      getD_eq_getElem?_getD, getElem?_replicate]
    split <;> rfl

omit fits in
theorem sumIn_block {index count k : Nat} (below : k < count) :
    sumIn ((volume.drop (record.checksumAt index)).take (2 * count)) k = storedOf volume record (index + k) := by
  unfold sumIn storedOf
  rw [getD_read (by omega), getD_read (by omega)]
  unfold checksumAt
  rw [show record.dataOffset + 2 * index + 2 * k = record.dataOffset + 2 * (index + k) by omega,
    show record.dataOffset + 2 * index + (2 * k + 1) = record.dataOffset + 2 * (index + k) + 1 by omega]

omit fits in
theorem sectorIn_parity {first width slot : Nat} (below : slot < width) :
    sectorIn ((volume.drop (record.parityAt first)).take (width * sectorLen)) slot = parityOf volume record (first + slot) := by
  refine Vector.ext fun j small => ?_
  have here : slot * 512 + j < width * 512 := by omega
  have place : record.dataOffset + 2 * record.sectors + first * 512 + (slot * 512 + j) =
      record.dataOffset + 2 * record.sectors + (first + slot) * 512 + j := by omega
  simp only [sectorIn, parityOf, Vector.getElem_ofFn, parityAt]
  rw [getD_read here, place]

end Record

/-! ### The order of the visits -/

section Order
variable {σ : Type} (volume : List UInt8) (record : Record) (visit : σ → Nat → Sector → UInt16 → σ)

/-- Visit these sectors. -/
def scan (indices : List Nat) (s : σ) : σ :=
  indices.foldl (fun s index => visit s index (sectorOf volume record index) (storedOf volume record index)) s

variable {volume record} (fits : record.Fits volume.length)
include fits

/-- A span of sectors is visited in order, and its bytes are read once and in order. -/
theorem forEach_eq (fuel index : Nat) {stop : Nat} (s : σ) (inside : stop ≤ record.sectors) (enough : stop - index ≤ fuel) :
    ∃ reads, forEach volume record visit fuel index stop s =
        .ok (scan volume record visit (range' index (stop - index)) s, reads) ∧
      bytesRead reads = (range' index (stop - index)).flatMap (sectorBytes record) := by
  induction fuel generalizing index s with
  | zero =>
    rw [show stop - index = 0 by omega]
    exact ⟨[], rfl, rfl⟩
  | succ fuel ih =>
    unfold forEach
    by_cases more : index < stop
    · rw [if_pos more]
      have positive : 0 < blockSectors := by decide
      generalize counted : min _ blockSectors = count
      have begins : (index + count - 1) * 512 < record.headerOffset := Record.sector_begins (by omega)
      have before := record.header_before
      have volumeEnd := fits
      unfold Record.Fits at volumeEnd
      have held : (record.sectorRange (index + count - 1)).2 - (record.sectorRange index).1 =
          min ((index + count) * 512) record.headerOffset - index * 512 := by
        simp only [Record.sectorRange, sectorLen]
        omega
      have start : (record.sectorRange index).1 = index * 512 := rfl
      dsimp only [bind, Except.bind]
      rw [held, start, readExactAt_eq (by omega)]
      rw [readExactAt_eq (by unfold Record.checksumAt; omega)]
      dsimp only
      generalize length : min ((index + count) * 512) record.headerOffset - index * 512 = size
      have visits : (range count).foldl (fun s k => visit s (index + k)
          (sectorIn ((volume.drop (index * 512)).take size ++ replicate (count * 512 - size) 0) k)
          (sumIn ((volume.drop (record.checksumAt index)).take (2 * count)) k)) s =
          scan volume record visit (range' index count) s := by
        rw [scan, range'_eq_map_range, foldl_map]
        refine foldl_ext _ _ _ fun s k member => ?_
        have below := mem_range.mp member
        rw [Record.sectorIn_block fits length.symm below, Record.sumIn_block below]
      rw [visits]
      obtain ⟨reads, rest, covered⟩ := ih (index + count) _ (by omega)
      rw [rest]
      have whole : range' index (stop - index) = range' index count ++ range' (index + count) (stop - (index + count)) := by
        rw [range'_append_1]
        congr 1
        omega
      refine ⟨(index * 512, size) :: reads, ?_, ?_⟩
      · rw [whole, scan, scan, scan, foldl_append]
      · rw [whole, flatMap_append, flatMap_sectorBytes, ← covered, length]
        rfl
    · rw [if_neg more, show stop - index = 0 by omega]
      exact ⟨[], rfl, rfl⟩

/-- The rounds of a window visit the sectors of its slots in order. -/
theorem rounds_eq {first last : Nat} (fuel turn : Nat) (s : σ) (order : first ≤ last) (inside : last ≤ record.slots)
    (enough : record.sectors ≤ turn * record.slots + fuel) :
    let visited := (range' (turn * record.slots) (record.sectors - turn * record.slots)).filter fun index =>
      decide (first ≤ index % record.slots ∧ index % record.slots < last)
    ∃ reads, rounds volume record visit first last fuel (turn * record.slots) s = .ok (scan volume record visit visited s, reads) ∧
      bytesRead reads = visited.flatMap (sectorBytes record) := by
  induction fuel generalizing turn s with
  | zero =>
    rw [show record.sectors - turn * record.slots = 0 by omega]
    exact ⟨[], rfl, rfl⟩
  | succ fuel ih =>
    intro visited
    have positive := record.slots_pos
    unfold rounds
    by_cases more : turn * record.slots < record.sectors
    · rw [if_pos more]
      have next : turn * record.slots + record.slots = (turn + 1) * record.slots := (Nat.succ_mul _ _).symm
      -- one turn takes the sectors of the window that are left in it
      have turns : visited = range' (min (turn * record.slots + first) record.sectors)
            (min (turn * record.slots + last) record.sectors - min (turn * record.slots + first) record.sectors) ++
          (range' ((turn + 1) * record.slots) (record.sectors - (turn + 1) * record.slots)).filter fun index =>
            decide (first ≤ index % record.slots ∧ index % record.slots < last) := by
        dsimp only [visited]
        have cut : range' (turn * record.slots) (record.sectors - turn * record.slots) =
            range' (turn * record.slots) (min record.slots (record.sectors - turn * record.slots)) ++
              range' ((turn + 1) * record.slots) (record.sectors - (turn + 1) * record.slots) := by
          rw [range'_join (by omega)]
          exact congrArg (range' _) (by omega)
        rw [cut, filter_append]
        refine congrArg (· ++ _) (Pairwise.eq_of_mem_iff ((pairwise_lt_range').filter _) pairwise_lt_range' fun index => ?_)
        rw [mem_filter, mem_range'_1, mem_range'_1, decide_eq_true_eq]
        by_cases low : turn * record.slots ≤ index
        · obtain ⟨offset, rfl⟩ := Nat.exists_eq_add_of_le low
          by_cases small : offset < record.slots
          · rw [Nat.mul_add_mod', Nat.mod_eq_of_lt small]
            omega
          · omega
        · omega
      obtain ⟨reads, span, covered⟩ := forEach_eq visit fits
        (min _ record.sectors - min _ record.sectors)
        (min _ record.sectors) s (Nat.min_le_right (turn * record.slots + last) _) (Nat.le_refl _)
      obtain ⟨later, rest, coveredLater⟩ := ih (turn + 1) (scan volume record visit
        (range' _
          (min _ record.sectors - min _ record.sectors)) s) (by omega)
      dsimp only [bind, Except.bind]
      rw [span]
      dsimp only
      rw [next, rest]
      refine ⟨reads ++ later, ?_, ?_⟩
      · rw [turns, scan, scan, scan, foldl_append]
      · rw [turns, flatMap_append, bytesRead_append, covered, coveredLater]
    · rw [if_neg more]
      have none : visited = [] := by
        dsimp only [visited]
        rw [show record.sectors - turn * record.slots = 0 by omega]
        rfl
      rw [none]
      exact ⟨[], rfl, rfl⟩

end Order
end Rarpar.Unrar.Rr3

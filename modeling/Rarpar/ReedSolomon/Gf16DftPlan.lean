import Rarpar.ReedSolomon.Gf16Dft

namespace Rarpar.Gf16Dft
open List Nat

/-- The exponent of one source, in `0 ..< 65535`. -/
def logOf (slots : List Nat) (i : Nat) : Nat := slots.getD i 0 % Gf.order

theorem and_shiftLeft_ne_zero (lines line : Nat) : lines &&& 1 <<< line ≠ 0 ↔ lines.testBit line = true := by
  rw [one_shiftLeft, and_two_pow]
  cases lines.testBit line <;> simp

/-- The lines whose cells are not empty. -/
theorem lineMask_testBit (cellStart : Nat → Nat) (v line : Nat) :
    (lineMask cellStart v).testBit line = true ↔
      line < plane ∧ cellStart (v * plane + line) < cellStart (v * plane + line + 1) := by
  have loop (n : Nat) : ((range n).foldl (fun mask line =>
      if cellStart (v * plane + line) < cellStart (v * plane + line + 1) then mask ||| 1 <<< line else mask)
      0).testBit line = true ↔ line < n ∧ cellStart (v * plane + line) < cellStart (v * plane + line + 1) := by
    induction n with
    | zero => simp
    | succ n ih =>
      rw [range_succ, foldl_append, foldl_cons, foldl_nil]
      rcases eq_or_ne line n with rfl | other
      · split_ifs with filled
        · simp [one_shiftLeft, filled]
        · rw [ih]
          simp [filled]
      · have bound : line < n + 1 ↔ line < n := by omega
        rw [bound]
        split
        · rw [testBit_or, one_shiftLeft, testBit_two_pow_of_ne other.symm, Bool.or_false]
          exact ih
        · exact ih
  exact loop plane

theorem lineMaskForU3_testBit : ∀ u3 < 3, ∀ u5 < 5, (lineMaskForU3 u3).testBit (u5 * 3 + u3) = true := by decide

theorem testBit_of_lineMaskForU3 {lines u3 u5 : Nat} (h3 : u3 < 3) (h5 : u5 < 5)
    (present : lines.testBit (u5 * 3 + u3) = true) : lines &&& lineMaskForU3 u3 ≠ 0 := by
  intro zero
  have bit := congrArg (fun mask => testBit mask (u5 * 3 + u3)) zero
  simp [present, lineMaskForU3_testBit u3 h3 u5 h5] at bit

theorem wantedP_eq_true_iff (exponents : List Nat) (p : Nat) :
    wantedP exponents p = true ↔ ∃ exponent ∈ exponents, pOf exponent = p := by
  have loop (wanted : Nat → Bool) :
      exponents.foldl (fun wanted exponent => Function.update wanted (pOf exponent) true) wanted p = true ↔
        wanted p = true ∨ ∃ exponent ∈ exponents, pOf exponent = p := by
    induction exponents generalizing wanted with
    | nil => simp
    | cons head rest ih =>
      rw [foldl_cons, ih]
      by_cases same : p = pOf head
      · subst same
        simp
      · simp [Function.update_of_ne same, Ne.symm same]
  rw [wantedP, loop]
  simp

/-- What the tables of a built plan say about the sources and the wanted rows. -/
structure Planned (slots : List Nat) (start stop bucketBatch : Nat) (plan : DftPlan) : Prop where
  sourceCount : plan.sourceCount = slots.length
  outputCount : plan.outputCount = stop - start
  bucketBatch : plan.bucketBatch = bucketBatch
  tab17 : plan.tab17 = rootTable logW17
  tab5 : plan.tab5 = rootTable logW5
  tab3 : plan.tab3 = rootTable logW3
  cell : ∀ v < 257, ∀ line < plane, (List.range' (plan.cellStart (v * plane + line))
      (plan.cellStart (v * plane + line + 1) - plan.cellStart (v * plane + line))).map
        (fun entry => (plan.srcIndex entry, plan.srcU17 entry)) =
    ((List.range slots.length).filter fun i => cellOf (logOf slots i) = v * plane + line).map
      fun i => (i, logOf slots i % 17)
  live : ∀ bucket < plan.liveBuckets.length, plan.liveBuckets.getD bucket 0 < 257 ∧
    plan.liveLines.getD bucket 0 = lineMask plan.cellStart (plan.liveBuckets.getD bucket 0) ∧
    plan.liveLines.getD bucket 0 ≠ 0
  nodup : plan.liveBuckets.Nodup
  covers : ∀ i < slots.length, logOf slots i % 257 ∈ plan.liveBuckets
  outQ : ∀ out < stop - start, plan.outQ.getD out 0 = qOf (start + out)
  row : ∀ out < stop - start, ∃ rank, let p := pOf (start + out)
    plan.outRow.getD out 0 = rowOf (rank, p % 5, p % 3) ∧ (rank, p % 5, p % 3) ∈ plan.needTriples ∧
      plan.needG17[rank]? = some (g17Of p) ∧
      plan.needPairs[plan.pairRank (pairCode (rank, p % 5))]? = some (rank, p % 5)
  triple : ∀ triple ∈ plan.needTriples, triple.2.1 < 5 ∧ triple.2.2 < 3

section Build
variable (slots : List Nat) {cellStart : Nat → Nat}

theorem sourceEntries_eq : sourceEntries slots = (range slots.length).map fun i =>
    (cellOf (logOf slots i), (i, logOf slots i % 17)) := by
  refine ext_getElem (by simp [sourceEntries]) fun i _ inside => ?_
  have bound : i < slots.length := by simpa using inside
  simp [sourceEntries, logOf, bound]

theorem cellOf_lt (exponent : Nat) : cellOf exponent < 257 * plane := by
  simp only [cellOf, plane]
  omega

theorem sourceEntries_inside : ∀ entry ∈ sourceEntries slots, entry.1 < 257 * plane := by
  intro entry member
  obtain ⟨_, _, rfl⟩ := mem_map.mp member
  exact cellOf_lt _

/-- The counting sort groups the sources by cell. -/
theorem source_cell {v line : Nat} (hv : v < 257) (hline : line < plane) :
    (range' (cellStarts slots (v * plane + line))
        (cellStarts slots (v * plane + line + 1) - cellStarts slots (v * plane + line))).map (sortedSources slots) =
      ((range slots.length).filter fun i => cellOf (logOf slots i) = v * plane + line).map
        fun i => (i, logOf slots i % 17) := by
  have bound : v * plane + line < 257 * plane := by
    simp only [plane] at hline ⊢
    omega
  refine (CountingSort.place_cell (sourceEntries_inside slots) _ bound).trans ?_
  rw [sourceEntries_eq, filter_map, map_map]
  rfl

theorem source_covered {i : Nat} (inside : i < slots.length) :
    cellStarts slots (cellOf (logOf slots i)) < cellStarts slots (cellOf (logOf slots i) + 1) := by
  have listed : cellOf (logOf slots i) ∈ (sourceEntries slots).map Prod.fst := by
    rw [sourceEntries_eq, map_map]
    exact mem_map.mpr ⟨i, mem_range.mpr inside, rfl⟩
  have frequent := count_pos_iff.mpr listed
  have next := CountingSort.starts_succ ((sourceEntries slots).map Prod.fst) (cellOf_lt (logOf slots i))
  rw [cellStarts, next]
  omega

theorem liveTable_getD {bucket : Nat} (inside : bucket < (liveTable cellStart).length) :
    ((liveTable cellStart).map Prod.fst).getD bucket 0 < 257 ∧
      ((liveTable cellStart).map Prod.snd).getD bucket 0 =
        lineMask cellStart (((liveTable cellStart).map Prod.fst).getD bucket 0) ∧
      ((liveTable cellStart).map Prod.snd).getD bucket 0 ≠ 0 := by
  have member := getElem_mem inside
  have known := member
  rw [getD_eq_getElem _ _ (by simpa using inside), getD_eq_getElem _ _ (by simpa using inside),
    getElem_map, getElem_map]
  generalize (liveTable cellStart)[bucket] = entry at known
  rw [liveTable, mem_filter, mem_map] at known
  obtain ⟨⟨v, bound, rfl⟩, live⟩ := known
  exact ⟨mem_range.mp bound, rfl, by simpa using live⟩

theorem liveTable_nodup (cellStart : Nat → Nat) : ((liveTable cellStart).map Prod.fst).Nodup := by
  refine List.Nodup.sublist (filter_sublist.map Prod.fst) ?_
  rw [map_map]
  exact (map_id (range 257)).symm ▸ nodup_range

theorem liveTable_covers {exponent : Nat}
    (filled : cellStart (cellOf exponent) < cellStart (cellOf exponent + 1)) :
    exponent % 257 ∈ (liveTable cellStart).map Prod.fst := by
  have bound : exponent % 257 < 257 := mod_lt _ (by decide)
  refine mem_map.mpr ⟨(exponent % 257, lineMask cellStart (exponent % 257)), ?_, rfl⟩
  rw [liveTable, mem_filter, mem_map]
  refine ⟨⟨_, mem_range.mpr bound, rfl⟩, ?_⟩
  have line : exponent % 5 * 3 + exponent % 3 < plane := by
    simp only [plane]
    omega
  have bit := (lineMask_testBit _ _ _).mpr
    ⟨line, by rwa [← add_assoc]⟩
  simp only [ne_eq, decide_eq_true_eq]
  intro zero
  rw [zero, zero_testBit] at bit
  exact Bool.false_ne_true bit

section Outputs
variable {start stop : Nat}

theorem mem_wantedPoints {out : Nat} (inside : out < stop - start) : pOf (start + out) ∈ wantedPoints start stop := by
  have listed : start + out ∈ range' start (stop - start) := by
    rw [mem_range'_1]
    omega
  rw [wantedPoints, mem_filter, mem_range]
  exact ⟨mod_lt _ (by decide), (wantedP_eq_true_iff _ _).mpr ⟨_, listed, rfl⟩⟩

/-- The ranks of the pruned tables lead back to the coordinates of each wanted point. -/
theorem ranked_point {p : Nat} (wanted : p ∈ wantedPoints start stop) :
    (g17Ranks start stop).2[(g17Ranks start stop).1 (g17Of p)]? = some (g17Of p) ∧
      (pairRanks start stop).2[(pairRanks start stop).1 (pairCode ((g17Ranks start stop).1 (g17Of p), p % 5))]? =
        some ((g17Ranks start stop).1 (g17Of p), p % 5) := by
  constructor
  · exact (Ranking.rank_spec (by decide) (fun _ _ _ _ same => same) _).2 _ (mem_map_of_mem wanted)
  · refine (Ranking.rank_spec (by decide) ?_ _).2 ((g17Ranks start stop).1 (g17Of p), p % 5) ?_
    · intro a ha b hb same
      simp only [wantedTriples, map_map, mem_map, Function.comp_apply, tripleOf] at ha hb
      obtain ⟨i, _, rfl⟩ := ha
      obtain ⟨j, _, rfl⟩ := hb
      simp only [pairCode] at same
      rw [Prod.mk.injEq]
      omega
    · rw [wantedTriples, map_map]
      exact mem_map.mpr ⟨p, wanted, rfl⟩

end Outputs

/-- Every batch size in range and every range of exponents builds. -/
theorem buildTuned_planned {start stop bucketBatch : Nat} (inside : stop ≤ Gf.order) (positive : 1 ≤ bucketBatch)
    (bounded : bucketBatch ≤ maxBucketBatch) :
    ∃ plan, buildTuned slots start stop bucketBatch = .ok plan ∧ Planned slots start stop bucketBatch plan := by
  have batch : ¬ (bucketBatch = 0 ∨ maxBucketBatch < bucketBatch) := by omega
  rw [buildTuned, if_neg batch, if_neg (not_lt.mpr inside)]
  refine ⟨_, rfl, rfl, length_range', rfl, rfl, rfl, rfl, ?_, ?_, ?_, ?_, ?_, ?_, ?_⟩
  · intro v hv line hline
    dsimp only
    exact source_cell slots hv hline
  · intro bucket known
    dsimp only at known ⊢
    exact liveTable_getD (by rwa [length_map] at known)
  · dsimp only
    exact liveTable_nodup _
  · intro i known
    dsimp only
    exact liveTable_covers (source_covered slots known)
  · intro out known
    simp [known]
  · intro out known
    have wanted := mem_wantedPoints known
    obtain ⟨rank, pair⟩ := ranked_point wanted
    refine ⟨_, ?_, ?_, rank, pair⟩
    · have marked := (mem_filter.mp wanted).2
      simp only [getD_eq_getElem?_getD, getElem?_map, getElem?_range' known, Option.map_some,
        Option.getD_some, one_mul, rowOfP, marked, if_true]
      rfl
    · exact mem_mergeSort.mpr (mem_map.mpr ⟨_, wanted, rfl⟩)
  · intro triple member
    obtain ⟨p, _, rfl⟩ := mem_map.mp (mem_mergeSort.mp member)
    exact ⟨mod_lt _ (by decide), mod_lt _ (by decide)⟩

end Build
end Rarpar.Gf16Dft

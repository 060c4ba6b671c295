import Rarpar.ReedSolomon.Gf16DftRows

namespace Rarpar
open GfSymbol GfSimd List Function Accumulate

namespace Gf16Dft
variable {words : Nat} {slots : List Nat} {start stop bucketBatch : Nat} {plan : DftPlan} {outputs : List (Region words)}

/-- The recovery row of one exponent, by definition. -/
def directRow (slots : List Nat) (sources : List (Region words)) (exponent : Nat) : Region words :=
  ∑ i ∈ Finset.range slots.length, (power (slots.getD i 0) : Word) ^ exponent • sources.getD i 0

theorem power_logOf (slots : List Nat) (i : Nat) : (power (logOf slots i) : Word) = power (slots.getD i 0) :=
  power_mod (w := 16) _

instance : Subsingleton (Region 0) := ⟨fun _ _ => Region.ext (funext fun i => i.elim0)⟩

theorem mapIdx_add_zero {term : Nat → Region words} (zero : ∀ out, term out = 0) :
    (outputs.mapIdx fun out row => row + term out) = outputs :=
  ext_getElem (by simp) (by simp [zero])

theorem stripeLenOf_eq {sources : List (Region words)} (count : sources.length = slots.length) (some : slots ≠ []) :
    DftPlan.stripeLenOf sources = 2 * words := by
  refine if_neg fun none => some (length_eq_zero_iff.mp ?_)
  rw [← count, none, length_nil]

theorem batches_cover (live : Nat) {size : Nat} (positive : 1 ≤ size) :
    min ((live + (size - 1)) / size * size) live = live := by
  apply Nat.min_eq_right
  have remainder := Nat.div_add_mod' (live + (size - 1)) size
  have below := Nat.mod_lt (live + (size - 1)) positive
  omega

section
variable (planned : Planned slots start stop bucketBatch plan) {cancelled : Nat → Bool}
include planned

theorem Planned.sum_directRow (sources : List (Region words)) (exponent : Nat) :
    ∑ bucket ∈ Finset.range plan.liveBuckets.length,
        bucketTerm slots (fun i => sources.getD i 0) (plan.liveBuckets.getD bucket 0) exponent =
      directRow slots sources exponent := by
  rw [planned.sum_bucketTerm, directRow]
  simp only [power_logOf]

/-- The rows hold the sub-transform of one bucket at every wanted point. -/
def Finished (slots : List Nat) (start stop : Nat) (plan : DftPlan) (sources : Nat → Region words) (bucket : Nat)
    (row : Nat → Region words) : Prop :=
  ∀ out < stop - start, plan.accumulateFactor bucket out • row (plan.outRow.getD out 0) =
    bucketTerm slots sources (plan.liveBuckets.getD bucket 0) (start + out)

theorem fillResults_finished (sources : Nat → Region words) (from_ : Nat) {upto : Nat} (inside : upto ≤ plan.liveBuckets.length) (scratch : DftScratch words) :
    ∀ slot < upto - from_, Finished slots start stop plan sources (from_ + slot)
      ((plan.fillResults sources from_ upto scratch).results slot) := by
  have room : ∀ slot < upto - from_, from_ + slot < plan.liveBuckets.length := fun slot below => by omega
  unfold DftPlan.fillResults
  generalize upto - from_ = count at room ⊢
  induction count with
  | zero => exact fun slot below => absurd below (Nat.not_lt_zero slot)
  | succ count ih =>
    intro slot below
    rw [range_succ, foldl_append]
    rcases Nat.lt_succ_iff_lt_or_eq.mp below with earlier | rfl
    · simp only [foldl_cons, foldl_nil, update_of_ne earlier.ne]
      exact ih (fun slot below => room slot (by omega)) slot earlier
    · simp only [foldl_cons, foldl_nil, update_self]
      exact fun out known => planned.bucketTransform_row (room slot below) known sources _ _

omit planned in
theorem accumulate_eq {sources : Nat → Region words} {from_ upto : Nat} {results : Nat → Nat → Region words}
    (finished : ∀ slot < upto - from_, Finished slots start stop plan sources (from_ + slot) (results slot))
    {outputs : List (Region words)} (length : outputs.length = stop - start) :
    plan.accumulate from_ upto results outputs = outputs.mapIdx fun out row => row +
      ∑ slot ∈ Finset.range (upto - from_),
        bucketTerm slots sources (plan.liveBuckets.getD (from_ + slot) 0) (start + out) := by
  refine ext_getElem (by simp [DftPlan.accumulate]) fun out inside _ => ?_
  have known : out < stop - start := by
    grind
  simp only [DftPlan.accumulate, getElem_mapIdx, mulAccInputBatch_eq, map_map]
  rw [← sum_map_range]
  refine congrArg (_ + sum ·) (map_congr_left fun slot member => ?_)
  exact finished slot (mem_range.mp member) out known

/-- The buckets of one batch at one exponent. -/
def batchTerm (slots : List Nat) (plan : DftPlan) (sources : Nat → Region words) (exponent batch : Nat) :
    Region words :=
  ∑ slot ∈ Finset.range (min plan.bucketBatch (plan.liveBuckets.length - batch * plan.bucketBatch)),
    bucketTerm slots sources (plan.liveBuckets.getD (batch * plan.bucketBatch + slot) 0) exponent

theorem transformBatches_eq (sources : Nat → Region words) (quiet : ∀ k, cancelled k = false) (batches : List Nat) (scratch : DftScratch words)
    (length : outputs.length = stop - start) :
    plan.transformBatches sources cancelled batches scratch outputs = (.ok (), outputs.mapIdx fun out row =>
      row + (batches.map (batchTerm slots plan sources (start + out))).sum) := by
  induction batches generalizing scratch outputs with
  | nil => exact congrArg (Prod.mk _) (mapIdx_add_zero fun _ => rfl).symm
  | cons batch rest ih =>
    have finished := fillResults_finished planned sources (batch * plan.bucketBatch)
      (Nat.min_le_right (batch * plan.bucketBatch + plan.bucketBatch) plan.liveBuckets.length) scratch
    have width : min (batch * plan.bucketBatch + plan.bucketBatch) plan.liveBuckets.length - batch * plan.bucketBatch =
        min plan.bucketBatch (plan.liveBuckets.length - batch * plan.bucketBatch) := by omega
    rw [DftPlan.transformBatches, if_neg (by rw [quiet]; exact Bool.false_ne_true)]
    dsimp only
    rw [accumulate_eq finished length, ih _ (by rw [length_mapIdx, length]), mapIdx_mapIdx, width]
    simp only [comp_def, map_cons, sum_cons, add_assoc]
    rfl

theorem transformStripe_eq (positive : 1 ≤ bucketBatch) {sources : List (Region words)} (count : sources.length = slots.length)
    (length : outputs.length = stop - start) {scratch : DftScratch words}
    (stripe : scratch.stripeLen = 2 * words) (room : scratch.len = plan.scratchBytes (2 * words))
    (quiet : ∀ k, cancelled k = false) :
    plan.transformStripe sources outputs scratch cancelled =
      (if slots = [] ∧ words ≠ 0 then .error .geometry else .ok (),
        outputs.mapIdx fun out row => row + directRow slots sources (start + out)) := by
  unfold DftPlan.transformStripe
  rw [if_neg (not_not.mpr (count.trans planned.sourceCount.symm))]
  by_cases empty : slots = []
  · -- With no source there is no stripe length, so only empty rows are accepted.
    have none : sources = [] := length_eq_zero_iff.mp (by rw [count, empty]; rfl)
    rw [mapIdx_add_zero fun out => by rw [empty]; rfl]
    by_cases short : words = 0
    · subst short
      simp [DftPlan.stripeLenOf, none, stripe, room, DftPlan.scratchBytes]
    · have refused : slots = [] ∧ words ≠ 0 := ⟨empty, short⟩
      have mismatch : scratch.stripeLen ≠ DftPlan.stripeLenOf sources := by
        rw [stripe, none, DftPlan.stripeLenOf, if_pos rfl]
        omega
      rw [if_pos (Or.inl mismatch), ite_self, if_pos refused]
  · have result : ¬ (slots = [] ∧ words ≠ 0) := fun both => empty both.1
    have width : outputs.length * (2 * words) = plan.outputCount * (2 * words) := by rw [length, planned.outputCount]
    have fits : ¬ (scratch.stripeLen ≠ 2 * words ∨ scratch.len ≠ plan.scratchBytes (2 * words)) := by simp [stripe, room]
    rw [if_neg result, stripeLenOf_eq count empty, if_neg (not_not.mpr width), if_neg fits]
    split_ifs with trivial
    · refine congrArg (Prod.mk _) (Eq.symm ?_)
      rcases trivial with short | none | dead
      · obtain rfl : words = 0 := by omega
        exact ext_getElem (by simp) fun _ _ _ => Subsingleton.elim _ _
      · obtain rfl : outputs = [] := length_eq_zero_iff.mp (by rw [length, ← planned.outputCount, none])
        rfl
      · exact mapIdx_add_zero fun out => by rw [← planned.sum_directRow, dead]; rfl
    · rw [transformBatches_eq planned _ quiet _ _ length]
      refine congrArg (Prod.mk _) (mapIdx_eq_mapIdx_iff.mpr fun out inside => ?_)
      have batch : 1 ≤ plan.bucketBatch := planned.bucketBatch ▸ positive
      rw [sum_map_range]
      simp only [batchTerm]
      rw [sum_blocks (fun bucket => bucketTerm slots _ (plan.liveBuckets.getD bucket 0) (start + out)),
        batches_cover _ batch, planned.sum_directRow]

end

section Schedule

/-- The buckets that one call folds into an output row. -/
def folded (out : Nat) : Call → List Nat
  | .transform _ _ _ => []
  | .accumulate buckets first last => if first ≤ out ∧ out < last then buckets.map Prod.fst else []

/-- The calls stay inside the plan, and each bucket is read from a slot that holds it.
`holds` is the bucket last transformed into each slot. -/
def Ordered (plan : DftPlan) : (Nat → Option Nat) → List Call → Prop
  | _, [] => True
  | holds, .transform bucket slot _ :: rest =>
    bucket < plan.liveBuckets.length ∧ Ordered plan (Function.update holds slot (some bucket)) rest
  | holds, .accumulate buckets first last :: rest =>
    (∀ entry ∈ buckets, holds entry.2 = some entry.1) ∧ first ≤ last ∧ last ≤ plan.outputCount ∧
      (first = last → buckets = []) ∧ Ordered plan holds rest

/-- A schedule that folds every live bucket exactly once into every output row. -/
structure Schedule (plan : DftPlan) (calls : List Call) : Prop where
  ordered : Ordered plan (fun _ => none) calls
  covers : ∀ out < plan.outputCount, (calls.flatMap (folded out)).Perm (List.range plan.liveBuckets.length)

/-- Buffers of the lengths that the plan asks for. -/
structure Workspace.Fits (plan : DftPlan) (work : Workspace words) : Prop where
  slot : ∀ slot, (work.slots slot).len = plan.resultBytes (2 * words)
  stage : ∀ stage, plan.stageBytes (2 * words) ≤ (work.stages stage).len
  outputs : work.outputs.length = plan.outputCount

/-- Every marked slot holds the finished rows of its bucket. -/
def Holding (slots : List Nat) (start stop : Nat) (plan : DftPlan) (sources : List (Region words))
    (holds : Nat → Option Nat) (work : Workspace words) : Prop :=
  ∀ slot bucket, holds slot = some bucket → bucket < plan.liveBuckets.length ∧
    Finished slots start stop plan (fun i => sources.getD i 0) bucket (work.slots slot).row

variable {sources : List (Region words)} {first last : Nat}

section
variable (planned : Planned slots start stop bucketBatch plan)
include planned

theorem Planned.slots_ne_nil {bucket : Nat} (live : bucket < plan.liveBuckets.length) : slots ≠ [] := by
  rintro rfl
  obtain ⟨hv, lines, nonzero⟩ := planned.live bucket live
  obtain ⟨line, bit⟩ := Nat.exists_testBit_of_ne_zero nonzero
  rw [lines, lineMask_testBit] at bit
  have length := congrArg length (planned.cell _ hv line bit.1)
  simp only [length_map, length_range', length_nil, range_zero, filter_nil] at length
  omega

theorem transformBucket_finished (count : sources.length = slots.length) {bucket : Nat} (live : bucket < plan.liveBuckets.length)
    {result stage : Arena words} (room : result.len = plan.resultBytes (2 * words))
    (space : plan.stageBytes (2 * words) ≤ stage.len) :
    ∃ done staged, plan.transformBucket bucket sources result stage = .ok (done, staged) ∧
      done.len = result.len ∧ staged.len = stage.len ∧
      Finished slots start stop plan (fun i => sources.getD i 0) bucket done.row := by
  have accepted : ¬ (sources.length ≠ plan.sourceCount ∨ plan.liveBuckets.length ≤ bucket ∨
      result.len ≠ plan.resultBytes (2 * words) ∨ stage.len < plan.stageBytes (2 * words)) := by
    rw [planned.sourceCount]
    omega
  unfold DftPlan.transformBucket
  rw [stripeLenOf_eq count (planned.slots_ne_nil live), if_neg accepted]
  by_cases short : 2 * words = 0
  · rw [if_pos short]
    obtain rfl : words = 0 := by omega
    exact ⟨result, stage, rfl, rfl, rfl, fun _ _ => Subsingleton.elim _ _⟩
  · rw [if_neg short]
    exact ⟨_, _, rfl, rfl, rfl, fun out known => planned.bucketTransform_row live known _ _ _⟩

theorem accumulateBuckets_eq {buckets : List (Nat × Arena words)} (live : ∀ entry ∈ buckets, entry.1 < plan.liveBuckets.length ∧
      entry.2.len = plan.resultBytes (2 * words) ∧
      Finished slots start stop plan (fun i => sources.getD i 0) entry.1 entry.2.row)
    (ascending : first ≤ last) (inside : last ≤ plan.outputCount)
    (empty : first = last → buckets = []) (length : outputs.length = last - first) :
    plan.accumulateBuckets buckets first last outputs = .ok (outputs.mapIdx fun i row =>
      row + (buckets.map fun entry => bucketTerm slots (fun i => sources.getD i 0)
        (plan.liveBuckets.getD entry.1 0) (start + (first + i))).sum) := by
  unfold DftPlan.accumulateBuckets
  rw [if_neg (by omega)]
  by_cases none : last = first
  · obtain rfl : outputs = [] := length_eq_zero_iff.mp (by omega)
    rw [if_pos none, if_pos ⟨Nat.zero_mul _, empty none.symm⟩]
    rfl
  · have stripe : outputs.length * (2 * words) / (last - first) = 2 * words := by
      rw [length, Nat.mul_div_cancel_left _ (by omega)]
    have accepted : ¬ (2 * words % 2 ≠ 0 ∨ ∃ entry ∈ buckets, plan.liveBuckets.length ≤ entry.1 ∨
        entry.2.len ≠ plan.resultBytes (2 * words)) := by
      rw [not_or, not_not]
      refine ⟨Nat.mul_mod_right 2 words, ?_⟩
      rintro ⟨entry, member, wrong⟩
      have right := live entry member
      omega
    rw [if_neg none, if_neg (by rw [length, Nat.mul_mod_right]; exact not_not.mpr rfl)]
    rw [stripe, if_neg accepted]
    split_ifs with trivial
    · refine congrArg Except.ok (ext_getElem (by simp) fun i _ _ => ?_)
      rcases trivial with short | nothing
      · obtain rfl : words = 0 := by omega
        exact Subsingleton.elim _ _
      · simp [nothing]
    · refine congrArg Except.ok (mapIdx_eq_mapIdx_iff.mpr fun i below => ?_)
      rw [mulAccBatches_eq, map_map]
      refine congrArg (_ + sum ·) (map_congr_left fun entry member => ?_)
      have known : first + i < stop - start := by
        rw [← planned.outputCount]
        omega
      exact (live entry member).2.2 (first + i) known

end

/-- Rewriting a middle section of a list in place. -/
theorem splice_mapIdx {α : Type*} (list : List α) (f : Nat → α → α) (ascending : first ≤ last)
    (inside : last ≤ list.length) :
    list.take first ++ (((list.drop first).take (last - first)).mapIdx fun i a => f (first + i) a) ++ list.drop last =
      list.mapIdx fun i a => if first ≤ i ∧ i < last then f i a else a := by
  have front : (list.take first).length = first := length_take_of_le (by omega)
  have middle : (((list.drop first).take (last - first)).mapIdx fun i a => f (first + i) a).length = last - first := by
    rw [length_mapIdx, length_take, length_drop]
    omega
  rw [append_assoc]
  refine ext_getElem (by simp; omega) fun i _ bound => ?_
  rw [getElem_mapIdx]
  rcases Nat.lt_or_ge i first with before | after
  · rw [getElem_append_left (by omega), getElem_take, if_neg (by omega)]
  · rw [getElem_append_right (by omega)]
    rcases Nat.lt_or_ge i last with within | beyond
    · rw [getElem_append_left (by omega), if_pos ⟨after, within⟩]
      simp only [getElem_mapIdx, getElem_take, getElem_drop, front, Nat.add_sub_cancel' after]
    · rw [getElem_append_right (by omega), if_neg (by omega), getElem_drop]
      congr 1
      omega

/-- What the buckets folded by some calls add to an output row. -/
def foldedTerm (slots : List Nat) (start : Nat) (plan : DftPlan) (sources : List (Region words)) (out : Nat)
    (buckets : List Nat) : Region words :=
  (buckets.map fun bucket =>
    bucketTerm slots (fun i => sources.getD i 0) (plan.liveBuckets.getD bucket 0) (start + out)).sum

/-- The state after one call, with the buckets that its slots hold. -/
structure Stepped (slots : List Nat) (start stop : Nat) (plan : DftPlan) (sources : List (Region words))
    (work : Workspace words) (call : Call) (rest : List Call) (next : Workspace words) (later : Nat → Option Nat) :
    Prop where
  fits : next.Fits plan
  holding : Holding slots start stop plan sources later next
  ordered : Ordered plan later rest
  outputs : next.outputs = work.outputs.mapIdx fun out row =>
    row + foldedTerm slots start plan sources out (folded out call)

variable {holds : Nat → Option Nat} {rest : List Call} {work : Workspace words}

section
variable (planned : Planned slots start stop bucketBatch plan)
include planned

theorem runCall_accumulate {buckets : List (Nat × Nat)}
    (ordered : Ordered plan holds (.accumulate buckets first last :: rest)) (fits : work.Fits plan)
    (holding : Holding slots start stop plan sources holds work) :
    ∃ next later, runCall plan sources work (.accumulate buckets first last) = .ok next ∧
      Stepped slots start stop plan sources work (.accumulate buckets first last) rest next later := by
  obtain ⟨held, ascending, inside, empty, ordered⟩ := ordered
  refine ⟨⟨work.slots, work.stages, work.outputs.mapIdx fun out row =>
    row + foldedTerm slots start plan sources out _⟩, holds, ?_,
    ⟨fits.slot, fits.stage, by rw [length_mapIdx, fits.outputs]⟩, holding, ordered, rfl⟩
  rw [runCall, accumulateBuckets_eq planned (?_ : ∀ entry ∈ _, _ ∧ _ ∧ Finished _ _ _ _ (fun i => sources.getD i 0) _ _)
    ascending inside (fun same => by rw [empty same]; rfl) ?_]
  · have rows := splice_mapIdx work.outputs (fun out row => row + foldedTerm slots start plan sources out
      (buckets.map Prod.fst)) ascending (inside.trans_eq fits.outputs.symm)
    refine congrArg (fun rows => Except.ok (⟨work.slots, work.stages, rows⟩ : Workspace words)) (Eq.trans ?_ (rows.trans ?_))
    · simp only [map_map, foldedTerm]
      rfl
    · refine mapIdx_eq_mapIdx_iff.mpr fun out _ => ?_
      simp only [folded]
      split
      · rfl
      · simp [foldedTerm]
  · refine forall_mem_map.mpr fun entry listed => ?_
    obtain ⟨bound, finished⟩ := holding _ _ (held entry listed)
    exact ⟨bound, fits.slot _, finished⟩
  · rw [length_take, length_drop, fits.outputs]
    omega

section
variable (count : sources.length = slots.length)
include count

theorem runCall_transform
    {bucket slot stage : Nat} (ordered : Ordered plan holds (.transform bucket slot stage :: rest))
    (fits : work.Fits plan) (holding : Holding slots start stop plan sources holds work) :
    ∃ next later, runCall plan sources work (.transform bucket slot stage) = .ok next ∧
      Stepped slots start stop plan sources work (.transform bucket slot stage) rest next later := by
  obtain ⟨live, ordered⟩ := ordered
  obtain ⟨done, staged, run, same, kept, finished⟩ :=
    transformBucket_finished planned count live (fits.slot slot) (fits.stage stage)
  refine ⟨{ work with slots := update work.slots slot done, stages := update work.stages stage staged },
    _, by rw [runCall, run]; rfl, ⟨?_, ?_, fits.outputs⟩, ?_, ordered, ?_⟩
  · exact (forall_update_iff work.slots fun _ result => result.len = _).mpr ⟨same.trans (fits.slot slot), fun other _ => fits.slot other⟩
  · exact (forall_update_iff work.stages fun _ stage => _ ≤ stage.len).mpr
      ⟨(fits.stage stage).trans_eq kept.symm, fun other _ => fits.stage other⟩
  · intro other known marked
    by_cases here : other = slot
    · subst here
      simp only [update_self] at marked ⊢
      cases marked
      exact ⟨live, finished⟩
    · simp only [update_of_ne here] at marked ⊢
      exact holding other known marked
  · exact (mapIdx_add_zero fun _ => rfl).symm

theorem runCall_step {call : Call} (ordered : Ordered plan holds (call :: rest)) (fits : work.Fits plan)
    (holding : Holding slots start stop plan sources holds work) :
    ∃ next later, runCall plan sources work call = .ok next ∧
      Stepped slots start stop plan sources work call rest next later := by
  cases call with
  | transform bucket slot stage => exact runCall_transform planned count ordered fits holding
  | accumulate buckets first last => exact runCall_accumulate planned ordered fits holding

/-- A run of ordered calls succeeds and adds what its calls fold, row by row. -/
theorem runCalls_eq
    {calls : List Call} (ordered : Ordered plan holds calls) (fits : work.Fits plan) (holding : Holding slots start stop plan sources holds work) :
    ∃ final, runCalls plan sources calls work = .ok final ∧ final.outputs = work.outputs.mapIdx fun out row =>
      row + foldedTerm slots start plan sources out (calls.flatMap (folded out)) := by
  induction calls generalizing holds work with
  | nil => exact ⟨work, rfl, (mapIdx_add_zero fun _ => rfl).symm⟩
  | cons call rest ih =>
    obtain ⟨next, later, step, stepped⟩ := runCall_step planned count ordered fits holding
    obtain ⟨final, run, finals⟩ := ih stepped.ordered stepped.fits stepped.holding
    refine ⟨final, by rw [runCalls, step]; exact run, ?_⟩
    rw [finals, stepped.outputs, mapIdx_mapIdx]
    simp only [comp_def, flatMap_cons, foldedTerm, map_append, sum_append, add_assoc]

theorem Schedule.outputs_eq {calls : List Call} (schedule : Schedule plan calls)
    (fits : work.Fits plan) :
    ∃ final, runCalls plan sources calls work = .ok final ∧ final.outputs = work.outputs.mapIdx fun out row =>
      row + directRow slots sources (start + out) := by
  have idle : Holding slots start stop plan sources (fun _ => none) work := fun _ _ marked => by cases marked
  obtain ⟨final, run, rows⟩ := runCalls_eq planned count schedule.ordered fits idle
  refine ⟨final, run, rows.trans (mapIdx_eq_mapIdx_iff.mpr fun out inside => ?_)⟩
  have covered := schedule.covers out (fits.outputs ▸ inside)
  rw [foldedTerm, (covered.map _).sum_eq, sum_map_range, planned.sum_directRow]

end

end

/-- One worker: each bucket is transformed into the first slot and folded into every row. -/
def sequentialCalls (plan : DftPlan) : List Call :=
  if plan.outputCount = 0 then []
  else (List.range plan.liveBuckets.length).flatMap fun bucket =>
    [.transform bucket 0 0, .accumulate [(bucket, 0)] 0 plan.outputCount]

theorem sequential_ordered (plan : DftPlan) (rows : plan.outputCount ≠ 0) {buckets : List Nat}
    (live : ∀ bucket ∈ buckets, bucket < plan.liveBuckets.length) (holds : Nat → Option Nat) :
    Ordered plan holds (buckets.flatMap fun bucket =>
      [.transform bucket 0 0, .accumulate [(bucket, 0)] 0 plan.outputCount]) := by
  induction buckets generalizing holds with
  | nil => exact True.intro
  | cons bucket rest ih =>
    obtain ⟨here, live⟩ := forall_mem_cons.mp live
    exact ⟨here, forall_mem_singleton.mpr (update_self ..), Nat.zero_le _, le_rfl, fun same => absurd same.symm rows, ih live _⟩

theorem sequentialCalls_schedule (plan : DftPlan) : Schedule plan (sequentialCalls plan) := by
  unfold sequentialCalls
  split_ifs with none
  · exact ⟨True.intro, fun out inside => by omega⟩
  · refine ⟨sequential_ordered plan none (fun bucket member => mem_range.mp member) _, fun out inside => ?_⟩
    rw [flatMap_assoc]
    simp [folded, inside]

end Schedule

/-- The pruned transform adds the direct sum to every output row, for every list of slots,
range of exponents, batch size and stripe length and whatever the scratch held; with no
source and rows that are not empty it is refused and the rows stay as they are. So does
every schedule of the bucket calls that covers each live bucket once for each row. -/
theorem transformStripe_direct (slots : List Nat) (start stop bucketBatch : Nat) (inside : stop ≤ Gf.order)
    (positive : 1 ≤ bucketBatch) (bounded : bucketBatch ≤ maxBucketBatch) :
    ∃ plan, buildTuned slots start stop bucketBatch = .ok plan ∧
      ∀ (words : Nat) (sources outputs : List (Region words)), sources.length = slots.length →
        outputs.length = stop - start →
        (∀ (scratch : DftScratch words) (cancelled : Nat → Bool), scratch.stripeLen = 2 * words →
          scratch.len = plan.scratchBytes (2 * words) → (∀ k, cancelled k = false) →
            plan.transformStripe sources outputs scratch cancelled =
              (if slots = [] ∧ words ≠ 0 then .error .geometry else .ok (), outputs.mapIdx fun out row =>
                row + ∑ i ∈ Finset.range slots.length,
                  (power (slots.getD i 0) : Word) ^ (start + out) • sources.getD i 0)) ∧
        ∀ (calls : List Call) (work : Workspace words), Schedule plan calls → work.Fits plan → work.outputs = outputs →
          ∃ final, runCalls plan sources calls work = .ok final ∧ final.outputs = outputs.mapIdx fun out row =>
            row + ∑ i ∈ Finset.range slots.length,
              (power (slots.getD i 0) : Word) ^ (start + out) • sources.getD i 0 := by
  obtain ⟨plan, built, planned⟩ := buildTuned_planned slots inside positive bounded
  refine ⟨plan, built, fun words sources outputs count length => ⟨?_, ?_⟩⟩
  · intro scratch cancelled stripe room quiet
    exact transformStripe_eq planned positive count length stripe room quiet
  · rintro calls work schedule fits rfl
    exact schedule.outputs_eq planned count fits

/-- Three sources, two of them in one slot, and the exponents 7 and 8, with one bucket at
a time in scratch that is not clear. -/
theorem transformStripe_direct_repeated :
    ∃ plan, buildTuned [4, 1, 4] 7 9 1 = .ok plan ∧
      plan.transformStripe (replicate 3 (⟨fun _ _ => 5⟩ : Region 1)) (replicate 2 ⟨fun _ _ => 3⟩)
        ⟨2, plan.scratchBytes 2, fun _ _ => ⟨fun _ _ => 1⟩, fun _ => ⟨fun _ _ => 1⟩⟩ (fun _ => false) =
        (.ok (), (replicate 2 ⟨fun _ _ => 3⟩).mapIdx fun out row => row + ∑ i ∈ Finset.range 3,
          (power ([4, 1, 4].getD i 0) : Word) ^ (7 + out) • (replicate 3 ⟨fun _ _ => 5⟩).getD i 0) ∧
      ∃ final, runCalls plan (replicate 3 ⟨fun _ _ => 5⟩) (sequentialCalls plan)
          ⟨fun _ => ⟨plan.resultBytes 2, fun _ => ⟨fun _ _ => 1⟩⟩, fun _ => ⟨plan.stageBytes 2, fun _ => ⟨fun _ _ => 1⟩⟩,
            replicate 2 (⟨fun _ _ => 3⟩ : Region 1)⟩ = .ok final ∧
        final.outputs = (replicate 2 ⟨fun _ _ => 3⟩).mapIdx fun out row => row + ∑ i ∈ Finset.range 3,
          (power ([4, 1, 4].getD i 0) : Word) ^ (7 + out) • (replicate 3 ⟨fun _ _ => 5⟩).getD i 0 := by
  obtain ⟨plan, built, direct⟩ := transformStripe_direct [4, 1, 4] 7 9 1 (by decide) (by decide) (by decide)
  obtain ⟨stripe, schedule⟩ := direct 1 (replicate 3 ⟨fun _ _ => 5⟩) (replicate 2 ⟨fun _ _ => 3⟩) rfl rfl
  have count : plan.outputCount = 2 := by
    cases built
    rfl
  refine ⟨plan, built, stripe _ _ rfl rfl fun _ => rfl, schedule _ _ (sequentialCalls_schedule plan) ?_ rfl⟩
  exact ⟨fun _ => rfl, fun _ => le_rfl, count.symm⟩

end Gf16Dft
end Rarpar

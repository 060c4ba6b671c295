import Rarpar.Unrar.LzOutput
import Rarpar.Unrar.WindowFlush

namespace Rarpar.Unrar
open Ranges List Nat

section Queue
variable {queue : List PendingFilter} {f g : PendingFilter}

section
variable (queue : List PendingFilter)

theorem pushPendingFilter_eq_insertIdx (f : PendingFilter) :
    pushPendingFilter queue f = queue.insertIdx (queuePosition queue f) f := by
  unfold pushPendingFilter
  split
  · simp_all
  · rfl

theorem queuePosition_le (f : PendingFilter) : queuePosition queue f ≤ queue.length := by
  unfold queuePosition
  split
  · rename_i k place
    have bound := (findIdx?_eq_some_iff_findIdx_eq.mp place).1
    rw [length_reverse] at bound
    omega
  · exact zero_le _

theorem queuePosition_concat (f g : PendingFilter) :
    queuePosition (queue ++ [g]) f =
      if g.blockStart ≤ f.blockStart then queue.length + 1 else queuePosition queue f := by
  unfold queuePosition
  rw [reverse_concat, findIdx?_cons, length_append, length_singleton]
  grind

theorem insertIdx_concat {V : Type*} (list : List V) (x y : V) {i : Nat} (inside : i ≤ list.length) :
    (list ++ [y]).insertIdx i x = list.insertIdx i x ++ [y] := by
  induction list generalizing i with
  | nil =>
    simp_all
  | cons head tail ih =>
    cases i with
    | zero => rfl
    | succ i =>
      grind

/-- The walk from the end of the queue. -/
theorem pushPendingFilter_concat (f g : PendingFilter) :
    pushPendingFilter (queue ++ [g]) f =
      if g.blockStart ≤ f.blockStart then queue ++ [g] ++ [f] else pushPendingFilter queue f ++ [g] := by
  rw [pushPendingFilter_eq_insertIdx, pushPendingFilter_eq_insertIdx, queuePosition_concat]
  split
  · have last : queue.length + 1 = (queue ++ [g]).length := by rw [length_append, length_singleton]
    rw [last, insertIdx_length_self]
  · exact insertIdx_concat queue f g (queuePosition_le queue f)

theorem pushPendingFilter_perm (f : PendingFilter) : (pushPendingFilter queue f).Perm (f :: queue) := by
  rw [pushPendingFilter_eq_insertIdx]
  exact perm_insertIdx f queue (queuePosition_le queue f)

end

/-- A filter passes no filter that starts before it. -/
theorem pushPendingFilter_append {front : List PendingFilter} (before : ∀ g ∈ front, g.blockStart ≤ f.blockStart)
    (queue : List PendingFilter) : pushPendingFilter (front ++ queue) f = front ++ pushPendingFilter queue f := by
  induction queue using reverseRecOn with
  | nil =>
    rw [append_nil]
    cases front using reverseRecOn with
    | nil => rfl
    | append_singleton front last =>
      rw [pushPendingFilter_concat, if_pos (before last (by simp))]
      rfl
  | append_singleton queue last ih =>
    grind [append_assoc, pushPendingFilter_concat]

/-- Ordered by where the blocks start. -/
def InOrder (queue : List PendingFilter) : Prop := queue.Pairwise fun f g => f.blockStart ≤ g.blockStart

theorem InOrder.push (ordered : InOrder queue) (f : PendingFilter) : InOrder (pushPendingFilter queue f) := by
  induction queue using reverseRecOn with
  | nil => exact pairwise_singleton _ _
  | append_singleton queue last ih =>
    obtain ⟨front, _, below⟩ := pairwise_append.mp ordered
    rw [pushPendingFilter_concat]
    split_ifs with behind
    · refine pairwise_append.mpr ⟨ordered, pairwise_singleton _ _, fun g member new isNew => ?_⟩
      obtain rfl := mem_singleton.mp isNew
      rcases mem_append.mp member with old | isLast
      · exact (below g old last (mem_singleton_self _)).trans behind
      · grind
    · refine pairwise_append.mpr ⟨ih front, pairwise_singleton _ _, fun g member new isNew => ?_⟩
      obtain rfl := mem_singleton.mp isNew
      rcases mem_cons.mp ((pushPendingFilter_perm queue f).mem_iff.mp member) with rfl | old
      · omega
      · exact below g old new (mem_singleton_self _)

end Queue

/-- What a pass over the queue leaves. -/
structure Pass where
  output : List UInt8
  queue : List PendingFilter
  border : Nat
  written : Nat
deriving DecidableEq

/-- The written size after `n` unfiltered bytes: it stays once it has reached the declared size. -/
def countRaw (declared written n : Nat) : Nat := if written < declared then written + n else written

/-- One pass over the queue, given everything decoded: from `border` on, unfiltered bytes as far as
the declared size allows, each complete block through its filter. Filters that start before the border
are ignored, and the pass ends at the first block that is not complete. -/
def pass (declared : Nat) (history : List UInt8) : List PendingFilter → Nat → Nat → Pass
  | [], border, written =>
    let raw := slice border history.length history
    ⟨raw.take (declared - written), [], max border history.length, countRaw declared written raw.length⟩
  | f :: rest, border, written =>
    if f.blockStart < border then pass declared history rest border written
    else
      let raw := slice border (min f.blockStart history.length) history
      let written' := countRaw declared written raw.length
      if f.blockEnd > history.length then
        ⟨raw.take (declared - written), f :: rest, max border (min f.blockStart history.length), written'⟩
      else
        let later := pass declared history rest f.blockEnd (written' + f.blockLength)
        { later with
          output := raw.take (declared - written) ++
            (f.output written' (slice f.blockStart f.blockEnd history) ++ later.output) }

section Passes
variable {declared base border written n : Nat} {history : List UInt8} {queue : List PendingFilter} {f : PendingFilter}

theorem pass_nil (inside : border ≤ history.length) :
    pass declared history [] border written =
      ⟨(slice border history.length history).take (declared - written), [], history.length,
        countRaw declared written (history.length - border)⟩ := by
  unfold pass
  dsimp only
  rw [max_eq_right inside, length_slice le_rfl]

theorem pass_ignored (ignored : f.blockStart < border) (rest : List PendingFilter)
    (written : Nat) :
    pass declared history (f :: rest) border written = pass declared history rest border written := by
  rw [pass, if_pos ignored]

theorem pass_open (starts : border ≤ f.blockStart) (inside : border ≤ history.length)
    (open_ : history.length < f.blockEnd) (rest : List PendingFilter) (written : Nat) :
    pass declared history (f :: rest) border written =
      ⟨(slice border (min f.blockStart history.length) history).take (declared - written), f :: rest,
        min f.blockStart history.length, countRaw declared written (min f.blockStart history.length - border)⟩ := by
  rw [pass, if_neg (by omega)]
  rw [if_pos open_, max_eq_right (by omega), length_slice (min_le_right _ _)]

/-- The pass after the block of `f`. -/
def afterBlock (declared : Nat) (history : List UInt8) (f : PendingFilter) (rest : List PendingFilter)
    (border written : Nat) : Pass :=
  pass declared history rest f.blockEnd (countRaw declared written (f.blockStart - border) + f.blockLength)

theorem pass_block (starts : border ≤ f.blockStart)
    (complete : f.blockEnd ≤ history.length) (rest : List PendingFilter) (written : Nat) :
    pass declared history (f :: rest) border written =
      { afterBlock declared history f rest border written with
        output := (slice border f.blockStart history).take (declared - written) ++
          (f.output (countRaw declared written (f.blockStart - border)) (slice f.blockStart f.blockEnd history) ++
            (afterBlock declared history f rest border written).output) } := by
  have early := (le_add_right _ _).trans complete
  rw [pass, if_neg (by omega)]
  rw [if_neg (by omega), min_eq_left early, length_slice early]
  rfl

/-- Until the declared size is reached, the written size is the offset of the border in the file. -/
def Counts (declared base border written : Nat) : Prop :=
  (written < declared ∧ border = base + written) ∨ (declared ≤ written ∧ base + declared ≤ border)

theorem Counts.raw (counts : Counts declared base border written) :
    Counts declared base (border + n) (countRaw declared written n) := by
  unfold Counts countRaw at *
  split <;> omega

theorem Counts.block (counts : Counts declared base border written) :
    Counts declared base (border + n) (written + n) := by
  unfold Counts at *
  omega

/-- Raw bytes up to an offset. -/
theorem Counts.upTo (counts : Counts declared base border written) {target : Nat} (start : border ≤ target) :
    Counts declared base target (countRaw declared written (target - border)) := by
  have moved := counts.raw (n := target - border)
  rwa [Nat.add_sub_cancel' start] at moved

theorem countRaw_past (past : declared ≤ written) (n : Nat) : countRaw declared written n = written :=
  if_neg (by omega)

/-- Counted in two pieces, bytes past the declared size may be counted in part. -/
theorem countRaw_add (declared written a b : Nat) :
    countRaw declared (countRaw declared written a) b = countRaw declared written (a + b) ∨
      (written < declared ∧ declared ≤ written + a ∧ 0 < b ∧
        countRaw declared (countRaw declared written a) b = written + a ∧
        countRaw declared written (a + b) = written + (a + b)) := by
  unfold countRaw
  by_cases low : written < declared
  · grind
  · simp only [if_neg low, true_or]

/-- Past the declared size the written size matters only to filters that use their offset. -/
theorem pass_output_past (plain : ∀ f ∈ queue, f.usesOffset = false)
    (inside : border ≤ history.length) {a b : Nat} (pastA : declared ≤ a) (pastB : declared ≤ b) :
    (pass declared history queue border a).output = (pass declared history queue border b).output := by
  have noneA : declared - a = 0 := by omega
  have noneB : declared - b = 0 := by omega
  induction queue generalizing border a b with
  | nil => rw [pass_nil inside, pass_nil inside, noneA, noneB]
  | cons f rest ih =>
    obtain ⟨first, others⟩ := forall_mem_cons.mp plain
    by_cases ignored : f.blockStart < border
    · rw [pass_ignored ignored, pass_ignored ignored]
      exact ih others inside pastA pastB noneA noneB
    by_cases complete : f.blockEnd ≤ history.length
    · grind [pass_block, countRaw_past, PendingFilter.output_of_not_usesOffset, afterBlock]
    · rw [pass_open (by omega) inside (by omega), pass_open (by omega) inside (by omega), noneA, noneB]

/-- Unfiltered bytes written in two pieces: the same bytes, and the same written size until it reaches
the declared one. -/
theorem take_raw_split {mid stop : Nat} (first : border ≤ mid) (second : mid ≤ stop)
    (inside : stop ≤ history.length) :
    (slice border stop history).take (declared - written) =
      (slice border mid history).take (declared - written) ++
        (slice mid stop history).take (declared - countRaw declared written (mid - border)) := by
  rw [slice_append first second, take_append, length_slice (by omega)]
  congr 2
  unfold countRaw
  split <;> omega

/-- A pass may stop anywhere before its first filter and go on from there. -/
theorem pass_split (ordered : InOrder queue) {mid : Nat}
    (reach : ∀ f ∈ queue, f.usesOffset = true → f.blockStart ≤ base + declared)
    (counts : Counts declared base border written) (start : border ≤ mid) (inside : mid ≤ history.length)
    (before : ∀ f ∈ queue, mid ≤ f.blockStart) :
    (pass declared history queue border written).output =
      (slice border mid history).take (declared - written) ++
        (pass declared history queue mid (countRaw declared written (mid - border))).output := by
  cases queue with
  | nil =>
    rw [pass_nil (start.trans inside), pass_nil inside]
    exact take_raw_split start inside le_rfl
  | cons f rest =>
    have starts := before f (mem_cons_self ..)
    by_cases complete : f.blockEnd ≤ history.length
    · have early : f.blockStart ≤ history.length := (le_add_right _ _).trans complete
      rw [pass_block (by omega) complete, pass_block starts complete]
      dsimp only
      rw [take_raw_split start starts early, append_assoc]
      congr 2
      unfold afterBlock
      -- the two counts agree unless the declared size lies before this block
      have total : mid - border + (f.blockStart - mid) = f.blockStart - border := by omega
      rcases countRaw_add declared written (mid - border) _ with
        agree | ⟨low, reached, later, split, whole⟩
      · rw [agree, total]
      · rw [total] at whole
        have plain : ∀ g ∈ f :: rest, g.usesOffset = false := by
          intro g member
          rw [← Bool.not_eq_true]
          intro address
          have limit := reach g member address
          unfold Counts at counts
          rcases mem_cons.mp member with rfl | follows
          · omega
          · have := (pairwise_cons.mp ordered).1 g follows
            omega
        obtain ⟨first, others⟩ := forall_mem_cons.mp plain
        rw [split, whole, PendingFilter.output_of_not_usesOffset first _ _]
        congr 1
        exact pass_output_past others complete (by omega) (by omega)
    · rw [pass_open (by omega) (by omega) (by omega), pass_open starts inside (by omega)]
      exact take_raw_split start (by omega) (min_le_right _ _)

theorem foldl_push_cons (new : List PendingFilter) (queue : List PendingFilter)
    (after : ∀ g ∈ new, f.blockStart ≤ g.blockStart) :
    new.foldl pushPendingFilter (f :: queue) = f :: new.foldl pushPendingFilter queue := by
  induction new generalizing queue with
  | nil => rfl
  | cons g new ih =>
    obtain ⟨first, others⟩ := forall_mem_cons.mp after
    have moved : pushPendingFilter ([f] ++ queue) g = [f] ++ pushPendingFilter queue g :=
      pushPendingFilter_append (by simpa using first) queue
    rw [foldl_cons, foldl_cons, ← ih _ others]
    exact congrArg (new.foldl pushPendingFilter) moved

theorem mem_foldl_push {new : List PendingFilter} {g : PendingFilter} :
    g ∈ new.foldl pushPendingFilter queue ↔ g ∈ queue ∨ g ∈ new := by
  induction new generalizing queue with
  | nil => simp
  | cons f new ih =>
    rw [foldl_cons, ih, (pushPendingFilter_perm queue f).mem_iff, mem_cons, mem_cons, or_comm (a := g = f),
      or_assoc]

theorem InOrder.foldl_push (ordered : InOrder queue) (new : List PendingFilter) :
    InOrder (new.foldl pushPendingFilter queue) := by
  induction new generalizing queue with
  | nil => exact ordered
  | cons f new ih => exact ih (ordered.push f)

/-- A pass over what is decoded so far, and later one over everything: together they write what one
pass over everything writes. -/
theorem pass_resume (ordered : InOrder queue)
    (counts : Counts declared base border written) (inside : border ≤ history.length) (more : List UInt8)
    {new : List PendingFilter} (after : ∀ g ∈ new, history.length ≤ g.blockStart)
    (reach : ∀ f ∈ new.foldl pushPendingFilter queue, f.usesOffset = true → f.blockStart ≤ base + declared) :
    (pass declared (history ++ more) (new.foldl pushPendingFilter queue) border written).output =
      (pass declared history queue border written).output ++
        (pass declared (history ++ more)
          (new.foldl pushPendingFilter (pass declared history queue border written).queue)
          (pass declared history queue border written).border
          (pass declared history queue border written).written).output := by
  have whole : history.length ≤ (history ++ more).length := by simp
  induction queue generalizing border written with
  | nil =>
    have split := pass_split (ordered.foldl_push new) reach counts inside whole
      (fun f member => after f (by simpa using mem_foldl_push.mp member))
    rw [slice_append_left le_rfl] at split
    rw [split, pass_nil inside]
  | cons f rest ih =>
    obtain ⟨below, others⟩ := pairwise_cons.mp ordered
    have early (limit : f.blockStart ≤ history.length) :
        new.foldl pushPendingFilter (f :: rest) = f :: new.foldl pushPendingFilter rest :=
      foldl_push_cons new rest fun g member => limit.trans (after g member)
    by_cases ignored : f.blockStart < border
    · rw [early (by omega)] at reach ⊢
      rw [pass_ignored ignored, pass_ignored ignored]
      exact ih others counts inside (forall_mem_cons.mp reach).2
    by_cases complete : f.blockEnd ≤ history.length
    · have starts : f.blockStart ≤ history.length := (le_add_right _ _).trans complete
      rw [early starts] at reach ⊢
      have counts' : Counts declared base f.blockEnd _ := (counts.upTo (not_lt.mp ignored)).block
      have later := ih others counts' complete (forall_mem_cons.mp reach).2
      rw [pass_block (by omega) complete, pass_block (by omega) (complete.trans whole)]
      unfold afterBlock
      rw [later, slice_append_left starts, slice_append_left complete, append_assoc, append_assoc]
    · have split := pass_split (ordered.foldl_push new) reach counts
        (show border ≤ min f.blockStart history.length by omega) ((min_le_right _ _).trans whole)
        (fun g member => by
          rcases mem_foldl_push.mp member with old | isNew
          · grind
          · exact (min_le_right _ _).trans (after g isNew))
      rw [slice_append_left (min_le_right _ _)] at split
      rw [pass_open (by omega) inside (by omega), split]

/-- Filters leave the queue and the border never moves back. -/
theorem pass_moves (declared : Nat) (queue : List PendingFilter) (written : Nat) (inside : border ≤ history.length) :
    (pass declared history queue border written).queue.Sublist queue ∧
      border ≤ (pass declared history queue border written).border := by
  induction queue generalizing border written with
  | nil =>
    rw [pass_nil inside]
    exact ⟨.refl _, inside⟩
  | cons f rest ih =>
    by_cases ignored : f.blockStart < border
    · rw [pass_ignored ignored]
      exact (ih written inside).imp_left (·.cons _)
    have starts := not_lt.mp ignored
    by_cases complete : f.blockEnd ≤ history.length
    · rw [pass_block starts complete]
      obtain ⟨fewer, later⟩ := ih _ complete
      exact ⟨fewer.cons _, (starts.trans (le_add_right _ _)).trans later⟩
    · rw [pass_open starts inside (by omega)]
      exact ⟨.refl _, Nat.le_min.mpr ⟨starts, inside⟩⟩

theorem pass_counts (counts : Counts declared base border written)
    (inside : border ≤ history.length) :
    Counts declared base (pass declared history queue border written).border
      (pass declared history queue border written).written := by
  induction queue generalizing border written with
  | nil =>
    rw [pass_nil inside]
    exact counts.upTo inside
  | cons f rest ih =>
    by_cases ignored : f.blockStart < border
    · rw [pass_ignored ignored]
      exact ih counts inside
    have starts := not_lt.mp ignored
    by_cases complete : f.blockEnd ≤ history.length
    · rw [pass_block starts complete]
      exact ih (counts.upTo starts).block complete
    · rw [pass_open starts inside (by omega)]
      exact counts.upTo (Nat.le_min.mpr ⟨starts, inside⟩)

end Passes

namespace Window

/-- A window all of whose bytes callers see. -/
structure Plain (w : Window) (history : List UInt8) : Prop extends Tracks w history where
  ranges : w.invisibleRanges = []
  border : w.totalFlushed ≤ history.length

variable {w : Window} {history : List UInt8}

theorem Plain.markFlushed (plain : Plain w history) (upTo : Nat) :
    Plain (w.markFlushed upTo) history ∧ (w.markFlushed upTo).totalFlushed = min upTo history.length := by
  have flushed : (w.markFlushed upTo).totalFlushed = min upTo w.totalWritten := rfl
  have ranges : (w.markFlushed upTo).invisibleRanges =
      w.invisibleRanges.filter fun r => r.1 + r.2 > (w.markFlushed upTo).totalFlushed := rfl
  rw [plain.written] at flushed
  refine ⟨⟨⟨⟨plain.positive, plain.allocated, plain.pos, plain.done, plain.holds⟩, plain.written⟩, ?_, ?_⟩, flushed⟩
  · rw [ranges, plain.ranges]
    rfl
  · omega

/-- A flush up to `target` writes the bytes before it as they are. -/
theorem Plain.flushVisibleUntil (plain : Plain w history) {target : Nat} (start : w.totalFlushed ≤ target)
    (inside : target ≤ history.length) (recent : history.length ≤ w.totalFlushed + w.dictSize) :
    ∃ w', w.flushVisibleUntil target = .ok (slice w.totalFlushed target history, target - w.totalFlushed, w') ∧
      Plain w' history ∧ w'.dictSize = w.dictSize := by
  unfold Window.flushVisibleUntil
  dsimp only
  rw [plain.written, min_eq_left inside]
  split_ifs with none
  · obtain rfl := le_antisymm none start
    exact ⟨w, by simp [slice], plain, rfl⟩
  · have range := writeRangeToWriter_eq plain.toTracks start inside fun _ => recent
    have marked := plain.markFlushed target
    refine ⟨w.settle target, ?_, ?_, rfl⟩
    · rw [writeVisibleSpan, plain.ranges, visibleLoop, visibleTail, if_pos (by omega), range]
      rfl
    · have same : w.markFlushed target = w.settle target := by
        rw [Window.markFlushed, plain.written, min_eq_left inside]
      rw [← same]
      exact marked.1

end Window

namespace LzOutput
variable {o : LzOutput} {history : List UInt8}

/-- What a flush does not touch. -/
structure SameMember (o o' : LzOutput) : Prop where
  base : o'.currentFileBaseTotal = o.currentFileBaseTotal
  declared : o'.currentFileUnpackedSize = o.currentFileUnpackedSize
  dictSize : o'.window.dictSize = o.window.dictSize

theorem SameMember.refl (o : LzOutput) : SameMember o o := ⟨rfl, rfl, rfl⟩

theorem SameMember.trans {o' o'' : LzOutput} (first : SameMember o o') (second : SameMember o' o'') :
    SameMember o o'' :=
  ⟨second.base.trans first.base, second.declared.trans first.declared, second.dictSize.trans first.dictSize⟩

/-- The bytes not yet flushed are in the dictionary. -/
def Fits (o : LzOutput) : Prop := o.window.totalWritten ≤ o.window.totalFlushed + o.window.dictSize

instance (o : LzOutput) : Decidable o.Fits :=
  inferInstanceAs (Decidable (o.window.totalWritten ≤ o.window.totalFlushed + o.window.dictSize))

/-- The result of writing `output`: border and written size move. -/
structure Wrote (o o' : LzOutput) (history : List UInt8) (output : List UInt8) (border written : Nat) : Prop
    extends SameMember o o' where
  plain : o'.window.Plain history
  sink : o'.sink = o.sink ++ output
  border : o'.window.totalFlushed = border
  written : o'.currentFileWrittenSize = written

theorem Wrote.trans {o' o'' : LzOutput} {output output' : List UInt8} {border written border' written' : Nat}
    (first : Wrote o o' history output border written) (second : Wrote o' o'' history output' border' written') :
    Wrote o o'' history (output ++ output') border' written' where
  toSameMember := first.toSameMember.trans second.toSameMember
  plain := second.plain
  sink := by rw [second.sink, first.sink, append_assoc]
  border := second.border
  written := second.written

/-- The dictionary still holds what is not flushed. -/
theorem Wrote.fits {o' : LzOutput} {output : List UInt8} {border written : Nat}
    (wrote : Wrote o o' history output border written) (same : o.window.totalWritten = history.length) (fits : o.Fits)
    (start : o.window.totalFlushed ≤ border) : o'.Fits := by
  unfold Fits at fits ⊢
  rw [wrote.border, wrote.dictSize, wrote.plain.written]
  omega

theorem writeRawSpan_idle {target : Nat} (reached : target ≤ o.window.totalFlushed) : writeRawSpan target o = .ok () o :=
  if_pos ((min_le_left _ _).trans reached)

theorem writeRawSpan_eq (plain : o.window.Plain history) (fits : o.Fits) {target : Nat}
    (start : o.window.totalFlushed ≤ target) (inside : target ≤ history.length) :
    ∃ o', writeRawSpan target o = .ok () o' ∧ o'.pendingFilters = o.pendingFilters ∧ Wrote o o' history
      ((slice o.window.totalFlushed target history).take (o.currentFileUnpackedSize - o.currentFileWrittenSize))
      target (countRaw o.currentFileUnpackedSize o.currentFileWrittenSize (target - o.window.totalFlushed)) := by
  have written := plain.written
  unfold Fits at fits
  unfold writeRawSpan
  dsimp only
  rw [written, min_eq_left inside]
  split
  · rename_i none
    obtain same := le_antisymm none start
    refine ⟨o, rfl, rfl, .refl o, plain, ?_, same.symm, ?_⟩
    · simp [same, slice]
    · rw [same, Nat.sub_self]
      unfold countRaw
      split <;> rfl
  split
  · rename_i some low
    obtain ⟨w, flushed, plain', dict⟩ := plain.flushVisibleUntil (le_add_right o.window.totalFlushed
      (min (target - o.window.totalFlushed) _))
      (by omega) (by omega)
    obtain ⟨marked, border⟩ := plain'.markFlushed target
    rw [flushed]
    refine ⟨_, rfl, rfl, ⟨rfl, rfl, dict⟩, marked, ?_, ?_, ?_⟩
    · dsimp only
      unfold slice
      rw [take_take]
      congr 2
      omega
    · grind
    · unfold countRaw
      rw [if_pos low]
  · rename_i some high
    obtain ⟨marked, border⟩ := plain.markFlushed target
    refine ⟨_, rfl, rfl, ⟨rfl, rfl, rfl⟩, marked, ?_, ?_, ?_⟩
    · rw [show o.currentFileUnpackedSize - o.currentFileWrittenSize = 0 by omega, take_zero, append_nil]
    · grind
    · rw [countRaw_past (by omega)]

theorem writeBlock_eq (plain : o.window.Plain history) (complete : f.blockEnd ≤ history.length)
    (block : List UInt8) :
    Wrote o (o.writeBlock f block) history (f.output o.currentFileWrittenSize block) f.blockEnd
      (o.currentFileWrittenSize + f.blockLength) := by
  obtain ⟨marked, border⟩ := plain.markFlushed f.blockEnd
  rw [min_eq_left complete] at border
  exact ⟨⟨rfl, rfl, rfl⟩, marked, rfl, border, rfl⟩

/-- The loop over the queue writes what the pass writes, up to the bytes after the last filter. -/
theorem retireLoop_eq (plain : o.window.Plain history) (fits : o.Fits) (queue : List PendingFilter) (k : Nat) :
    ∃ o' border r output written, retireLoop history.length queue o.window.totalFlushed k o = .ok (border, k + r) o' ∧
      o'.pendingFilters = o.pendingFilters ∧ Wrote o o' history output border written ∧
      o.window.totalFlushed ≤ border ∧
      (r = queue.length ∧
          pass o.currentFileUnpackedSize history queue o.window.totalFlushed o.currentFileWrittenSize =
            { pass o.currentFileUnpackedSize history [] border written with
              output := output ++ (pass o.currentFileUnpackedSize history [] border written).output } ∨
        r < queue.length ∧
          pass o.currentFileUnpackedSize history queue o.window.totalFlushed o.currentFileWrittenSize =
            ⟨output, queue.drop r, border, written⟩) := by
  have written := plain.written
  have border := plain.border
  induction queue generalizing o k with
  | nil =>
    exact ⟨o, _, 0, [], _, rfl, rfl, ⟨.refl o, plain, (append_nil _).symm, rfl, rfl⟩, le_rfl, Or.inl ⟨rfl, rfl⟩⟩
  | cons f rest ih =>
    by_cases ignored : f.blockStart < o.window.totalFlushed
    · obtain ⟨o', border', r, output, written', loop, kept, wrote, later, rest_eq⟩ := ih plain fits (k + 1) written border
      refine ⟨o', border', r + 1, output, written', ?_, kept, wrote, later, ?_⟩
      · rw [retireLoop, if_pos ignored, loop, add_assoc, add_comm 1 r]
      · rw [pass_ignored ignored]
        simpa using rest_eq
    -- the bytes before the block
    obtain ⟨o₁, raw, kept, wrote⟩ := writeRawSpan_eq plain fits
      (show o.window.totalFlushed ≤ min f.blockStart history.length by omega) (min_le_right _ _)
    have moved : (if min f.blockStart history.length > o.window.totalFlushed then
        writeRawSpan (min f.blockStart history.length) o else .ok () o) = .ok () o₁ := by
      split_ifs with none
      · exact raw
      · rw [← raw, writeRawSpan_idle (by omega)]
    have most : max o.window.totalFlushed (min f.blockStart history.length) = min f.blockStart history.length := by
      omega
    by_cases complete : f.blockEnd ≤ history.length
    · have early : f.blockStart ≤ history.length := (le_add_right _ _).trans complete
      rw [min_eq_left early] at moved most wrote
      have block : o₁.window.tryCopyOutput f.blockStart f.blockLength =
          .ok (slice f.blockStart f.blockEnd history) :=
        Window.tryCopyOutput_eq wrote.plain.toTracks complete (by unfold Fits at fits; rw [wrote.dictSize]; omega)
      have filtered := writeBlock_eq wrote.plain complete (slice f.blockStart f.blockEnd history)
      have both := wrote.trans filtered
      have kept₂ : (o₁.writeBlock f (slice f.blockStart f.blockEnd history)).pendingFilters = o₁.pendingFilters := rfl
      generalize named : o₁.writeBlock f _ = o₂ at filtered both kept₂
      have reached : o.window.totalFlushed ≤ f.blockEnd := (not_lt.mp ignored).trans (le_add_right _ _)
      obtain ⟨o', border', r, output, written', loop, kept', wrote', later, rest_eq⟩ :=
        ih both.plain (both.fits written fits reached) (k + 1) both.plain.written both.plain.border
      rw [both.border] at loop later rest_eq
      rw [both.declared, both.written, wrote.written] at rest_eq
      refine ⟨o', border', r + 1, _, written', ?_, kept'.trans (kept₂.trans kept), both.trans wrote', ?_, ?_⟩
      · rw [retireLoop, if_neg ignored]
        dsimp only
        rw [min_eq_left early, moved]
        dsimp only
        rw [if_neg (by omega), block]
        dsimp only
        rw [named, loop, add_assoc, add_comm 1 r]
      · exact reached.trans later
      · rw [pass_block (not_lt.mp ignored) complete]
        unfold afterBlock
        rcases rest_eq with ⟨all, rest_eq⟩ | ⟨some, rest_eq⟩
        · simp_all [wrote.written, append_assoc]
        · simp_all [wrote.written, append_assoc, drop_succ_cons]
    · refine ⟨o₁, min f.blockStart history.length, 0, _, _, ?_, kept, wrote, by omega, Or.inr ⟨by simp, ?_⟩⟩
      · rw [retireLoop, if_neg ignored]
        dsimp only
        rw [moved]
        dsimp only
        rw [most, if_pos (by omega)]
        rfl
      · rw [pass_open (not_lt.mp ignored) border (by omega), drop_zero]

/-- The result of a flush is that of a pass over what is decoded so far. -/
structure Flushed (o o' : LzOutput) (history : List UInt8) (p : Pass) : Prop extends SameMember o o' where
  plain : o'.window.Plain history
  sink : o'.sink = o.sink ++ p.output
  queue : o'.pendingFilters = p.queue
  border : o'.window.totalFlushed = p.border
  written : o'.currentFileWrittenSize = p.written

/-- Only the border at which the next flush happens is set. -/
theorem Flushed.recompute {o' : LzOutput} {p : Pass} (flushed : Flushed o o' history p) :
    Flushed o o'.recomputeFlushBorder history p := by
  unfold recomputeFlushBorder
  exact ⟨⟨flushed.base, flushed.declared, flushed.dictSize⟩, flushed.plain, flushed.sink, flushed.queue, flushed.border, flushed.written⟩

theorem Wrote.flushed {o' : LzOutput} {p : Pass} (wrote : Wrote o o' history p.output p.border p.written)
    (queue : o'.pendingFilters = p.queue) : Flushed o o' history p :=
  ⟨wrote.toSameMember, wrote.plain, wrote.sink, queue, wrote.border, wrote.written⟩

/-- The pass from where the output stands. -/
def pending (o : LzOutput) (history : List UInt8) : Pass :=
  pass o.currentFileUnpackedSize history o.pendingFilters o.window.totalFlushed o.currentFileWrittenSize

theorem retireTail_eq {o₀ : LzOutput} {output : List UInt8} {border written r : Nat} (fits : o₀.Fits)
    (written₀ : o₀.window.totalWritten = history.length) (start : o₀.window.totalFlushed ≤ border)
    (kept : o.pendingFilters = o₀.pendingFilters) (wrote : Wrote o₀ o history output border written)
    (progress : r = o₀.pendingFilters.length ∧ o₀.pending history =
          { pass o₀.currentFileUnpackedSize history [] border written with
            output := output ++ (pass o₀.currentFileUnpackedSize history [] border written).output } ∨
        r < o₀.pendingFilters.length ∧ o₀.pending history = ⟨output, o₀.pendingFilters.drop r, border, written⟩) :
    ∃ o', retireTail history.length (border, r) o = .ok (o₀.pending history).border o' ∧
      Flushed o₀ o' history (o₀.pending history) := by
  have inside := wrote.plain.border
  rw [wrote.border] at inside
  unfold retireTail
  dsimp only
  rw [kept]
  rcases progress with ⟨all, p_eq⟩ | ⟨some, p_eq⟩
  · rw [if_pos all, p_eq, pass_nil inside]
    have cleared : Wrote o₀ { o with pendingFilters := [] } history output border written :=
      ⟨⟨wrote.base, wrote.declared, wrote.dictSize⟩, wrote.plain, wrote.sink, wrote.border, wrote.written⟩
    have empty : ({ o with pendingFilters := [] } : LzOutput).pendingFilters = [] := rfl
    generalize ({ o with pendingFilters := [] } : LzOutput) = o₁ at cleared empty ⊢
    obtain ⟨o', raw, kept', tail⟩ :=
      writeRawSpan_eq cleared.plain (cleared.fits written₀ fits start) cleared.plain.border le_rfl
    rw [cleared.declared, cleared.border, cleared.written] at tail
    have flushed := Wrote.flushed (p := ⟨_, [], _, _⟩) (cleared.trans tail) (kept'.trans empty)
    split
    · rw [raw]
      exact ⟨o', rfl, flushed⟩
    · obtain rfl : border = history.length := by omega
      rw [writeRawSpan_idle cleared.border.ge] at raw
      cases raw
      exact ⟨o₁, rfl, flushed⟩
  · rw [if_neg (by omega), p_eq]
    exact ⟨_, rfl, ⟨⟨wrote.base, wrote.declared, wrote.dictSize⟩, wrote.plain, wrote.sink, rfl, wrote.border,
      wrote.written⟩⟩

section
variable (plain : o.window.Plain history) (fits : o.Fits)
include plain fits

theorem flushUnfilteredStreamOutput_eq (empty : o.pendingFilters = []) :
    ∃ o', flushUnfilteredStreamOutput o = .ok () o' ∧ Flushed o o' history (o.pending history) := by
  obtain ⟨o', raw, kept, wrote⟩ := writeRawSpan_eq plain fits plain.border le_rfl
  refine ⟨o'.recomputeFlushBorder, by rw [flushUnfilteredStreamOutput, plain.written, raw], Flushed.recompute ?_⟩
  unfold pending
  rw [empty, pass_nil plain.border]
  exact Wrote.flushed wrote (kept.trans empty)

theorem flushFiltersAndWrite_eq :
    ∃ o', flushFiltersAndWrite o = .ok () o' ∧ Flushed o o' history (o.pending history) := by
  unfold flushFiltersAndWrite
  split_ifs with empty
  · exact flushUnfilteredStreamOutput_eq plain fits (isEmpty_iff.mp empty)
  · dsimp only
    rw [plain.written]
    obtain ⟨o₁, border, r, output, written, loop, kept, wrote, start, progress⟩ :=
      retireLoop_eq plain fits o.pendingFilters 0
    obtain ⟨o₂, tail, flushed⟩ := retireTail_eq fits plain.written start kept wrote progress
    rw [loop]
    dsimp only
    rw [zero_add, tail]
    obtain ⟨marked, same⟩ := flushed.plain.markFlushed (o.pending history).border
    have reached := flushed.plain.border
    rw [flushed.border] at reached
    rw [min_eq_left reached] at same
    exact ⟨_, rfl, Flushed.recompute ⟨⟨flushed.base, flushed.declared, flushed.dictSize⟩, marked, flushed.sink,
      flushed.queue, same, flushed.written⟩⟩

theorem flushStreamOutput_eq :
    ∃ o', flushStreamOutput o = .ok () o' ∧ Flushed o o' history (o.pending history) := by
  unfold flushStreamOutput
  split_ifs with empty
  · exact flushUnfilteredStreamOutput_eq plain fits (isEmpty_iff.mp empty)
  · obtain ⟨o', run, flushed⟩ := flushFiltersAndWrite_eq plain fits
    have later := (pass_moves o.currentFileUnpackedSize o.pendingFilters o.currentFileWrittenSize plain.border).2
    have border := flushed.border
    have same := flushed.dictSize
    have before := plain.written
    have after := flushed.plain.written
    unfold pending at border
    unfold Fits at fits
    rw [run]
    dsimp only
    rw [if_neg (by unfold Window.unflushedBytes; omega)]
    exact ⟨o', rfl, flushed⟩

end

end LzOutput

/-- What happens to the output of a member while it is decoded. -/
inductive DecodeEvent where
  | putByte (b : UInt8)
  | putBytes (bytes : List UInt8)
  | copy (distance length : Nat)
  | registerPendingFilter (f : PendingFilter)
  | flushStreamOutput
  | flushFiltersAndWrite

namespace DecodeEvent
open LzOutput

def apply : DecodeEvent → Writing Unit
  | .putByte b, o => .ok () { o with window := o.window.putByte b }
  | .putBytes bytes, o => .ok () { o with window := o.window.putBytes bytes }
  | .copy distance length, o => .ok () { o with window := o.window.copy distance length }
  | .registerPendingFilter f, o => LzOutput.registerPendingFilter f o
  | .flushStreamOutput, o => LzOutput.flushStreamOutput o
  | .flushFiltersAndWrite, o => LzOutput.flushFiltersAndWrite o

/-- What is decoded, flushed or not. -/
def grow (dictSize : Nat) (history : List UInt8) : DecodeEvent → List UInt8
  | .putByte b => history ++ [b]
  | .putBytes bytes => history ++ bytes
  | .copy distance length => Window.appendMatch dictSize distance length history
  | _ => history

def filter? : DecodeEvent → Option PendingFilter
  | .registerPendingFilter f => some f
  | _ => none

/-- A match has a distance, a filter starts at or after the output so far and finds room in the queue,
and a flush finds the pending bytes in the dictionary. -/
def Legal (o : LzOutput) : DecodeEvent → Prop
  | .copy distance _ => 1 ≤ distance
  | .registerPendingFilter f => o.window.totalWritten ≤ f.blockStart ∧ o.pendingFilters.length < maxPendingFilters
  | .flushStreamOutput | .flushFiltersAndWrite => o.Fits
  | _ => True

instance (o : LzOutput) (e : DecodeEvent) : Decidable (e.Legal o) :=
  match e with
  | .copy distance _ => inferInstanceAs (Decidable (1 ≤ distance))
  | .registerPendingFilter f =>
    inferInstanceAs (Decidable (o.window.totalWritten ≤ f.blockStart ∧ o.pendingFilters.length < maxPendingFilters))
  | .flushStreamOutput | .flushFiltersAndWrite => inferInstanceAs (Decidable o.Fits)
  | .putByte _ | .putBytes _ => inferInstanceAs (Decidable True)

/-- A member: the events, then the last flush. -/
def run : List DecodeEvent → Writing Unit
  | [], o => LzOutput.flushFiltersAndWrite o
  | e :: events, o =>
    match e.apply o with
    | .ok _ o => run events o
    | .error error o => .error error o

def LegalRun : List DecodeEvent → LzOutput → Prop
  | [], o => o.Fits
  | e :: events, o =>
    e.Legal o ∧
      match e.apply o with
      | .ok _ o => LegalRun events o
      | .error _ _ => True

instance decidableLegalRun : (events : List DecodeEvent) → (o : LzOutput) → Decidable (LegalRun events o)
  | [], o => inferInstanceAs (Decidable o.Fits)
  | e :: events, o =>
    match applied : e.apply o with
    | .ok _ o' =>
      have := decidableLegalRun events o'
      decidable_of_iff (e.Legal o ∧ LegalRun events o') (by rw [LegalRun, applied])
    | .error _ _ => decidable_of_iff (e.Legal o) (by rw [LegalRun, applied, and_true])

variable {o : LzOutput} {history : List UInt8}

/-- What holds between two events. -/
structure Stands (o : LzOutput) (history : List UInt8) : Prop where
  plain : o.window.Plain history
  ordered : InOrder o.pendingFilters
  counts : Counts o.currentFileUnpackedSize o.currentFileBaseTotal o.window.totalFlushed o.currentFileWrittenSize

theorem prefix_foldl_grow (dictSize : Nat) (events : List DecodeEvent) (history : List UInt8) :
    history <+: events.foldl (grow dictSize) history := by
  induction events generalizing history with
  | nil => exact prefix_refl _
  | cons e events ih =>
    refine List.IsPrefix.trans ?_ (ih _)
    cases e with
    | putByte b => exact prefix_append _ _
    | putBytes bytes => exact prefix_append _ _
    | copy distance length =>
      change history <+: Window.appendMatch dictSize distance length history
      rw [Window.appendMatch_eq_append]
      exact prefix_append _ _
    | registerPendingFilter f => exact prefix_refl _
    | flushStreamOutput => exact prefix_refl _
    | flushFiltersAndWrite => exact prefix_refl _

/-- A write to the window leaves everything else as it is. -/
theorem Stands.write (stands : Stands o history) {w : Window} {after : List UInt8} {n : Nat} (grown : history <+: after)
    (stored : w.Tracks after ∧ Window.Advances n o.window w) : Stands { o with window := w } after where
  plain := ⟨stored.1, stored.2.ranges.trans stands.plain.ranges, by
    rw [stored.2.flushed]
    exact stands.plain.border.trans grown.length_le⟩
  ordered := stands.ordered
  counts := by
    rw [stored.2.flushed]
    exact stands.counts

/-- The rest of a member writes what one pass after its last event writes, and its filters start in the
output to come. -/
def OnePass (events : List DecodeEvent) (o : LzOutput) (history : List UInt8) : Prop :=
  (∀ f ∈ events.filterMap filter?, history.length ≤ f.blockStart) ∧
    ∃ o', run events o = .ok () o' ∧ o'.sink = o.sink ++
      (pass o.currentFileUnpackedSize (events.foldl (grow o.window.dictSize) history)
        ((events.filterMap filter?).foldl pushPendingFilter o.pendingFilters) o.window.totalFlushed
        o.currentFileWrittenSize).output

/-- Every filter that uses its offset starts within the declared size. -/
def Reach (events : List DecodeEvent) (o : LzOutput) : Prop :=
  ∀ f ∈ (events.filterMap filter?).foldl pushPendingFilter o.pendingFilters, f.usesOffset = true →
    f.blockStart ≤ o.currentFileBaseTotal + o.currentFileUnpackedSize

variable {e : DecodeEvent} {events : List DecodeEvent}

theorem OnePass.write {w : Window} {after : List UInt8} {n : Nat} (grown : history <+: after)
    (stored : Window.Advances n o.window w) (rest : OnePass events { o with window := w } after)
    (step : e.apply o = .ok () { o with window := w }) (grows : grow o.window.dictSize history e = after)
    (no : e.filter? = none) : OnePass (e :: events) o history := by
  obtain ⟨later, o', runs, sink⟩ := rest
  rw [OnePass, filterMap_cons_none no]
  refine ⟨fun f member => grown.length_le.trans (later f member), o', by rw [run, step]; exact runs, ?_⟩
  rw [sink, stored.dictSize, stored.flushed, foldl_cons, grows]

theorem OnePass.register
    (rest : OnePass events { o with pendingFilters := pushPendingFilter o.pendingFilters f } history)
    (later : history.length ≤ f.blockStart) (room : o.pendingFilters.length < maxPendingFilters) :
    OnePass (.registerPendingFilter f :: events) o history := by
  have step : apply (.registerPendingFilter f) o =
      .ok () { o with pendingFilters := pushPendingFilter o.pendingFilters f } := by
    rw [apply, LzOutput.registerPendingFilter, if_neg (by omega)]
  obtain ⟨after, o', runs, sink⟩ := rest
  refine ⟨?_, o', by rw [run, step]; exact runs, sink⟩
  intro g member
  rcases mem_cons.mp member with rfl | old
  · exact later
  · exact after g old

variable {o₁ : LzOutput}

section
variable (stands : Stands o history)
include stands

/-- What a flush leaves is a member under way again. -/
theorem Stands.flush (flushed : Flushed o o₁ history (o.pending history)) :
    Stands o₁ history where
  plain := flushed.plain
  ordered := by
    rw [flushed.queue]
    exact stands.ordered.sublist (pass_moves _ o.pendingFilters o.currentFileWrittenSize stands.plain.border).1
  counts := by
    rw [flushed.declared, flushed.base, flushed.border, flushed.written]
    exact pass_counts stands.counts stands.plain.border

theorem Reach.flush (flushed : Flushed o o₁ history (o.pending history))
    (reach : Reach events o) : Reach events o₁ := by
  intro f member address
  rw [flushed.base, flushed.declared]
  refine reach f (mem_foldl_push.mpr ?_) address
  rcases mem_foldl_push.mp member with old | new
  · rw [flushed.queue] at old
    exact Or.inl ((pass_moves _ o.pendingFilters o.currentFileWrittenSize stands.plain.border).1.subset old)
  · exact Or.inr new

theorem OnePass.flush (reach : Reach events o)
    (flushed : Flushed o o₁ history (o.pending history)) (rest : OnePass events o₁ history) (step : e.apply o = .ok () o₁)
    (grows : grow o.window.dictSize history e = history) (no : e.filter? = none) : OnePass (e :: events) o history := by
  obtain ⟨later, o', runs, sink⟩ := rest
  obtain ⟨more, grown⟩ := prefix_foldl_grow o.window.dictSize events history
  rw [OnePass, filterMap_cons_none no]
  refine ⟨later, o', by rw [run, step]; exact runs, ?_⟩
  rw [sink, flushed.sink, flushed.declared, flushed.dictSize, flushed.queue, flushed.border, flushed.written,
    foldl_cons, grows, ← grown, pass_resume stands.ordered stands.counts stands.plain.border more later reach,
    append_assoc]
  rfl

theorem run_onePass (legal : LegalRun events o) (reach : Reach events o) : OnePass events o history := by
  induction events generalizing o history with
  | nil =>
    obtain ⟨o', flush, flushed⟩ := flushFiltersAndWrite_eq stands.plain legal
    exact ⟨nofun, o', flush, flushed.sink⟩
  | cons e events ih =>
    obtain ⟨allowed, rest⟩ := legal
    have flush (step : ∃ o', e.apply o = .ok () o' ∧ Flushed o o' history (o.pending history))
        (grows : grow o.window.dictSize history e = history) (no : e.filter? = none) :
        OnePass (e :: events) o history := by
      obtain ⟨o₁, step, flushed⟩ := step
      rw [step] at rest
      rw [Reach, filterMap_cons_none no] at reach
      exact .flush stands reach flushed (ih (stands.flush flushed) rest (Reach.flush stands flushed reach)) step grows no
    cases e with
    | putByte b =>
      have stored := Window.putByte_tracks stands.plain.toTracks b
      have grown : history <+: history ++ [b] := prefix_append _ _
      exact .write grown stored.2 (ih (stands.write grown stored) rest reach) rfl rfl rfl
    | putBytes bytes =>
      have stored := Window.putBytes_tracks stands.plain.toTracks bytes
      have grown : history <+: history ++ bytes := prefix_append _ _
      exact .write grown stored.2 (ih (stands.write grown stored) rest reach) rfl rfl rfl
    | copy distance length =>
      have whole : o.window.copy distance length = o.window.copyAdvance distance length :=
        Window.truncate_all le_rfl _
      have stored := Window.copyAdvance_tracks stands.plain.toTracks allowed length
      have grown : history <+: Window.appendMatch o.window.dictSize distance length history := by
        rw [Window.appendMatch_eq_append]
        exact prefix_append _ _
      rw [← whole] at stored
      exact .write grown stored.2 (ih (stands.write grown stored) rest reach) rfl rfl rfl
    | registerPendingFilter f =>
      obtain ⟨later, room⟩ := allowed
      rw [stands.plain.written] at later
      rw [apply, LzOutput.registerPendingFilter, if_neg (by omega)] at rest
      have stands₁ : Stands { o with pendingFilters := pushPendingFilter o.pendingFilters f } history :=
        ⟨stands.plain, stands.ordered.push f, stands.counts⟩
      exact .register (ih stands₁ rest reach) later room
    | flushStreamOutput => exact flush (flushStreamOutput_eq stands.plain allowed) rfl rfl
    | flushFiltersAndWrite => exact flush (flushFiltersAndWrite_eq stands.plain allowed) rfl rfl

end

/-- What a member starts from. -/
structure Begun (o o' : LzOutput) (declared : Nat) : Prop where
  window : o'.window = o.window.markFlushed o.window.totalWritten
  queue : o'.pendingFilters = []
  base : o'.currentFileBaseTotal = o.window.totalWritten
  written : o'.currentFileWrittenSize = 0
  declared : o'.currentFileUnpackedSize = declared
  sink : o'.sink = o.sink

theorem beginFileDecode_begun (declared : Nat) : Begun o (o.beginFileDecode declared) declared :=
  ⟨rfl, rfl, rfl, rfl, rfl, rfl⟩

/-- A member writes what one pass at its end writes, whenever it flushes, if no filter that uses its
offset starts past the declared size. -/
theorem flush_schedule_irrelevant {o : LzOutput} {history : List UInt8} (plain : o.window.Plain history) (declared : Nat)
    (events : List DecodeEvent) (legal : LegalRun events (o.beginFileDecode declared))
    (reach : ∀ f ∈ events.filterMap filter?, f.usesOffset = true → f.blockStart ≤ history.length + declared) :
    ∃ o', run events (o.beginFileDecode declared) = .ok () o' ∧ o'.sink = o.sink ++
      (pass declared (events.foldl (grow o.window.dictSize) history)
        ((events.filterMap filter?).foldl pushPendingFilter []) history.length 0).output := by
  obtain ⟨marked, border⟩ := plain.markFlushed o.window.totalWritten
  rw [plain.written, min_self, ← plain.written] at border
  have begun : Begun o _ declared := beginFileDecode_begun _
  generalize o.beginFileDecode declared = o₁ at legal begun ⊢
  rw [← begun.window] at marked border
  have stands : Stands o₁ history := by
    refine ⟨marked, ?_, ?_⟩
    · rw [begun.queue]
      exact List.Pairwise.nil
    · rw [begun.declared, begun.base, begun.written, border, Counts]
      omega
  have dict : o₁.window.dictSize = o.window.dictSize := by
    rw [begun.window]
    rfl
  obtain ⟨-, o', runs, sink⟩ := run_onePass stands legal (fun f member address => by
    rw [begun.base, begun.declared, plain.written]
    rw [begun.queue] at member
    rcases mem_foldl_push.mp member with old | new
    · exact absurd old not_mem_nil
    · exact reach f new address)
  rw [begun.sink, begun.declared, begun.queue, begun.written, border, plain.written, dict] at sink
  exact ⟨o', runs, sink⟩

/-- A fresh decoder with a dictionary of 64 bytes. -/
def fresh : LzOutput := ⟨⟨fun _ => 0, 64, 64, 0, false, 0, 0, [], 0⟩, [], 0, 0, 0, 0, 0, []⟩

theorem fresh_plain : fresh.window.Plain [] := by
  have made : Window.tryNew (fun _ => true) 64 = .ok fresh.window := rfl
  obtain ⟨tracks, _, _⟩ := Window.tryNew_tracks made
  exact ⟨tracks, rfl, le_rfl⟩

/-- A flush inside an E8 block: the block is held back until it is complete. -/
theorem flush_schedule_irrelevant_inside_block :
    ∃ o', run [.registerPendingFilter ⟨.e8, 2, 6, 0⟩, .putBytes [1, 2, 0xE8], .flushStreamOutput, .putBytes [9, 0],
        .copy 1 2, .putByte 3, .flushFiltersAndWrite, .putByte 4] (fresh.beginFileDecode 9) = .ok () o' ∧
      o'.sink = [1, 2, 0xE8, 6, 0, 0, 0, 3, 4] := by
  obtain ⟨o', runs, sink⟩ := flush_schedule_irrelevant fresh_plain 9 [.registerPendingFilter ⟨.e8, 2, 6, 0⟩,
    .putBytes [1, 2, 0xE8], .flushStreamOutput, .putBytes [9, 0], .copy 1 2, .putByte 3, .flushFiltersAndWrite,
    .putByte 4] (by decide) (by decide)
  exact ⟨o', runs, sink.trans (by decide)⟩

/-- The bytes a member's run has written, if it succeeds. -/
def writes (events : List DecodeEvent) (o : LzOutput) : Option (List UInt8) :=
  match run events o with
  | .ok _ o' => some o'.sink
  | .error _ _ => none

/-- Two legal runs of one member, apart only in a flush, write different bytes: the E8 block starts past the
declared size, where a flush decides how far the offset has counted. -/
theorem flush_schedule_matters_past_declared_size :
    LegalRun [.registerPendingFilter ⟨.e8, 8, 5, 0⟩, .putBytes [0, 0, 0, 0, 0], .flushStreamOutput,
        .putBytes [0, 0, 0, 0xE8, 0, 0, 0, 0]] (fresh.beginFileDecode 4) ∧
      LegalRun [.registerPendingFilter ⟨.e8, 8, 5, 0⟩, .putBytes [0, 0, 0, 0, 0],
        .putBytes [0, 0, 0, 0xE8, 0, 0, 0, 0]] (fresh.beginFileDecode 4) ∧
      writes [.registerPendingFilter ⟨.e8, 8, 5, 0⟩, .putBytes [0, 0, 0, 0, 0], .flushStreamOutput,
        .putBytes [0, 0, 0, 0xE8, 0, 0, 0, 0]] (fresh.beginFileDecode 4) =
          some [0, 0, 0, 0, 0xE8, 0xFA, 0xFF, 0xFF, 0xFF] ∧
      writes [.registerPendingFilter ⟨.e8, 8, 5, 0⟩, .putBytes [0, 0, 0, 0, 0],
        .putBytes [0, 0, 0, 0xE8, 0, 0, 0, 0]] (fresh.beginFileDecode 4) =
          some [0, 0, 0, 0, 0xE8, 0xF7, 0xFF, 0xFF, 0xFF] := by
  refine ⟨?_, ?_, ?_, ?_⟩
  all_goals decide +kernel

end DecodeEvent

end Rarpar.Unrar

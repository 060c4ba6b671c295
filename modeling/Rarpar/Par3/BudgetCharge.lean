import Rarpar.Par3.EngineError
import Rarpar.Par3.Scan

namespace Rarpar.Par3

/-! The budget that a walk over a directory tree is charged against, from `ingest.rs` and `runtime.rs`. -/

inductive LimitCause
  | exceedsLimit
  | peerContention
  | unmeasured
deriving DecidableEq

/-- `ResourceLimit::cause`. -/
def EngineError.cause : EngineError → Option LimitCause
  | .resourceLimit _ => some .unmeasured
  | .budgetLimit _ need limit _ =>
    some (if need = 0 ∧ limit = 0 then .unmeasured else if need > limit then .exceedsLimit else .peerContention)
  | _ => none

structure MemoryBudget where
  limit : Nat
  used : Nat

/-- The exchange succeeds or is refused at the value it saw last. -/
def MemoryBudget.charge (category : String) (bytes : Nat) (budget : MemoryBudget) : Except EngineError MemoryBudget :=
  if budget.used + bytes ≤ budget.limit then .ok { budget with used := budget.used + bytes }
  else .error (.budgetLimit category bytes budget.limit (budget.limit - budget.used))

structure Reservation where
  budget : MemoryBudget
  category : String
  bytes : Nat

namespace Reservation

def growBy (bytes : Nat) (r : Reservation) : Except EngineError Reservation := do
  let budget ← r.budget.charge r.category bytes
  return { r with budget, bytes := r.bytes + bytes }

def shrinkTo (bytes : Nat) (r : Reservation) : Reservation :=
  { r with budget.used := r.budget.used - (r.bytes - bytes), bytes }

end Reservation

structure BudgetCharge where
  reservation : Reservation
  ceiling : Nat
  headroom : Nat
  taken : Nat
  reserved : Nat
  pending : Nat
  failure : Option EngineError

def expansionGranuleBytes : Nat := 64 * 1024

def resolutionBaseBytes : Nat := 64 * 1024

namespace BudgetCharge

def refuse (c : BudgetCharge) (error : EngineError) : EStateM.Result Par3Error BudgetCharge Unit :=
  .error (.scanLimitExceeded "resolving this input set needs more memory than the budget allows")
    { c with failure := some error }

def reserveAhead : EStateM Par3Error BudgetCharge Unit := fun c =>
  let need := saturatingAdd c.taken c.pending
  if need ≤ c.reserved then .ok () c
  else if need > c.ceiling then
    c.refuse (.budgetLimit "metadata expansion" need c.ceiling (c.headroom - c.taken))
  else
    let ahead := max (min (saturatingAdd need expansionGranuleBytes) c.ceiling) need
    match c.reservation.growBy (ahead - c.reserved) with
    | .error error => c.refuse error
    | .ok reservation => .ok () { c with reservation, reserved := ahead }

def settle (c : BudgetCharge) : BudgetCharge := { c with taken := saturatingAdd c.taken c.pending, pending := 0 }

/-- Gives back what was reserved ahead. -/
def release (c : BudgetCharge) : BudgetCharge :=
  if c.reserved > c.taken then
    let slack := c.reserved - c.taken
    { c with reservation := c.reservation.shrinkTo (c.reservation.bytes - slack), reserved := c.taken }
  else c

/-- What a call does once the reservation covers it. -/
def covered (finish : BudgetCharge → BudgetCharge) (c : BudgetCharge) : EStateM.Result Par3Error BudgetCharge Unit :=
  match reserveAhead c with
  | .ok _ c => .ok () (finish c)
  | .error e c => .error e c

def flush : EStateM Par3Error BudgetCharge Unit := covered fun c => c.settle.release

def charge (bytes : Nat) : EStateM Par3Error BudgetCharge Unit := fun c =>
  covered (fun c => if c.pending ≥ expansionGranuleBytes then c.settle else c)
    { c with pending := saturatingAdd c.pending bytes }

/-- How `metadata_accounted` starts a walk: the working set is reserved, and the ceiling is what is left without peers. -/
def start (budget : MemoryBudget) (retainedLimit retained working : Nat) : Except EngineError BudgetCharge := do
  let available := budget.limit - budget.used
  let ceiling := min retainedLimit available
  let uncontended := min retainedLimit (budget.limit - retained)
  if ceiling < working then throw (.budgetLimit "resolved metadata" working uncontended available)
  let budget ← budget.charge "resolved metadata" working
  return ⟨⟨budget, "resolved metadata", working⟩, uncontended - working, ceiling - working, 0, 0, 0, none⟩

inductive Call
  | charge (bytes : Nat)
  | flush

def Call.run : Call → EStateM Par3Error BudgetCharge Unit
  | .charge bytes => BudgetCharge.charge bytes
  | .flush => BudgetCharge.flush

def Call.bytes : Call → Nat
  | .charge bytes => bytes
  | .flush => 0

/-- The others hold `held` bytes of the budget. -/
def beside (held : Nat) (c : BudgetCharge) : BudgetCharge :=
  { c with reservation.budget.used := held + c.reservation.bytes }

/-- A call, with what the others hold at that moment. -/
def step (c : BudgetCharge) (call : Nat × Call) : EStateM.Result Par3Error BudgetCharge Unit :=
  call.2.run (c.beside call.1)

/-- The walk after these calls, whether they were refused or not. -/
def after (c : BudgetCharge) (calls : List (Nat × Call)) : BudgetCharge :=
  calls.foldl (fun c call => match c.step call with | .ok _ c | .error _ c => c) c

def charged (calls : List (Nat × Call)) : Nat := (calls.map fun call => call.2.bytes).sum

/-- What every call keeps of a walk that started as `o`, with `total` bytes charged so far. -/
structure Keeps (o : BudgetCharge) (total : Nat) (c : BudgetCharge) : Prop where
  limit : c.reservation.budget.limit = o.reservation.budget.limit
  ceiling : c.ceiling = o.ceiling
  bytes : c.reservation.bytes = o.reservation.bytes + c.reserved
  settled : c.taken ≤ c.reserved
  within : c.reserved ≤ o.ceiling
  need : saturatingAdd c.taken c.pending = min total (2 ^ 64 - 1)

/-- The answer to a call with `total` bytes charged. It is refused unless they are reserved already or the budget has
what is to be reserved ahead. -/
def Answers (o : BudgetCharge) (total reserved used granule : Nat) (Good : BudgetCharge → Prop) :
    EStateM.Result Par3Error BudgetCharge Unit → Prop
  | .ok _ now => Keeps o total now ∧ Good now ∧ (reserved < total → total ≤ o.ceiling ∧
      used + (min (total + granule) o.ceiling - reserved) ≤ o.reservation.budget.limit)
  | .error _ now => Keeps o total now ∧ reserved < total ∧
      (now.failure.bind EngineError.cause = some .exceedsLimit ↔ o.ceiling < total) ∧ (total ≤ o.ceiling →
      o.reservation.budget.limit < used + (min (total + granule) o.ceiling - reserved))

section
variable {o c : BudgetCharge} {total : Nat} (small : o.ceiling < 2 ^ 64 - 1)
  (inside : o.reservation.bytes + o.ceiling ≤ o.reservation.budget.limit) (keeps : Keeps o total c)
include keeps

theorem Keeps.pend (bytes : Nat) : Keeps o (total + bytes) { c with pending := saturatingAdd c.pending bytes } := by
  refine { keeps with need := ?_ }
  have need := keeps.need
  unfold saturatingAdd at *
  dsimp only
  omega

theorem Keeps.release (exact : c.taken = total) : Keeps o total c.release ∧ c.release.reserved = total := by
  obtain ⟨limit, ceiling, bytes, settled, within, need⟩ := keeps
  unfold BudgetCharge.release
  split
  · refine ⟨⟨limit, ceiling, ?_, le_rfl, settled.trans within, need⟩, exact⟩
    dsimp only [Reservation.shrinkTo]
    omega
  · exact ⟨⟨limit, ceiling, bytes, settled, within, need⟩, by omega⟩

include small

/-- What is settled is exact, since it is reserved. -/
theorem Keeps.settle (most : total ≤ c.reserved) : Keeps o total c.settle ∧ c.settle.taken = total := by
  have within := keeps.within
  have exact : saturatingAdd c.taken c.pending = total := by
    rw [keeps.need]
    omega
  refine ⟨{ keeps with settled := exact.trans_le most, need := ?_ }, exact⟩
  rw [BudgetCharge.settle, exact]
  rfl

include inside

theorem reserveAhead_answers :
    Answers o total c.reserved c.reservation.budget.used expansionGranuleBytes (total ≤ ·.reserved) (reserveAhead c) := by
  have refused {error : EngineError} : Keeps o total { c with failure := some error } := { keeps with }
  obtain ⟨limit, ceiling, bytes, settled, within, need⟩ := keeps
  unfold reserveAhead
  dsimp only
  rw [need, ceiling]
  generalize expansionGranuleBytes = granule
  split
  · exact ⟨⟨limit, ceiling, bytes, settled, within, need⟩, by omega, by omega⟩
  split
  · rename_i more beyond
    refine ⟨refused, by omega, iff_of_true ?_ (by omega), by omega⟩
    rw [Option.bind_some, EngineError.cause, if_neg (by omega), if_pos beyond]
  · rename_i more fits
    have grown : max (min (saturatingAdd (min total (2 ^ 64 - 1)) granule) o.ceiling) (min total (2 ^ 64 - 1)) =
        min (total + granule) o.ceiling := by
      unfold saturatingAdd
      generalize 2 ^ 64 - 1 = most at *
      omega
    rw [grown, Reservation.growBy, MemoryBudget.charge, limit]
    by_cases room : c.reservation.budget.used + (min (total + granule) o.ceiling - c.reserved) ≤
        o.reservation.budget.limit
    · rw [if_pos room]
      refine ⟨⟨rfl, rfl, ?_, settled.trans ?_, min_le_right _ _, need⟩, ?_, fun _ => ⟨by omega, room⟩⟩
      all_goals
        dsimp only
        omega
    · rw [if_neg room]
      refine ⟨refused, by omega, iff_of_false ?_ (by omega), fun _ => by omega⟩
      rw [Option.bind_some, EngineError.cause, if_neg (by omega), if_neg (by omega)]
      exact nofun

theorem covered_answers {finish : BudgetCharge → BudgetCharge} {Good : BudgetCharge → Prop}
    (finishes : ∀ {now}, Keeps o total now → total ≤ now.reserved → Keeps o total (finish now) ∧ Good (finish now)) :
    Answers o total c.reserved c.reservation.budget.used expansionGranuleBytes Good (covered finish c) := by
  have answers := reserveAhead_answers small inside keeps
  unfold covered
  cases done : reserveAhead c with
  | ok _ now =>
    rw [done] at answers
    obtain ⟨kept, most, room⟩ := answers
    obtain ⟨kept, good⟩ := finishes kept most
    exact ⟨kept, good, room⟩
  | error e now =>
    rw [done] at answers
    exact answers

theorem step_answers (held : Nat) (call : Call) :
    Answers o (total + call.bytes) c.reserved (held + c.reservation.bytes) expansionGranuleBytes
      (fun now => total + call.bytes ≤ now.reserved ∧ (call = .flush → now.reserved = total + call.bytes))
      (c.step (held, call)) := by
  have beside : Keeps o total (c.beside held) := { keeps with }
  cases call with
  | charge bytes =>
    refine covered_answers small inside (beside.pend bytes) fun {now} kept most => ?_
    split
    · exact ⟨(kept.settle small most).1, most, nofun⟩
    · exact ⟨kept, most, nofun⟩
  | flush =>
    refine covered_answers small inside beside fun {now} kept most => ?_
    obtain ⟨kept, exact⟩ := kept.settle small most
    obtain ⟨kept, exact⟩ := kept.release exact
    exact ⟨kept, exact.ge, fun _ => exact⟩

omit keeps

theorem after_keeps (keeps : Keeps o 0 c) (calls : List (Nat × Call)) : Keeps o (charged calls) (c.after calls) := by
  induction calls using List.reverseRecOn with
  | nil => exact keeps
  | append_singleton calls call ih =>
    have answers := step_answers small inside ih call.1 call.2
    rw [charged, List.map_append, List.sum_append, List.map_singleton, List.sum_singleton, after, List.foldl_append]
    change Keeps _ _ (match (c.after calls).step call with | .ok _ c | .error _ c => c)
    cases done : (c.after calls).step call with
    | ok _ now | error _ now =>
      rw [done] at answers
      exact answers.1

end

theorem start_keeps {budget : MemoryBudget} {retainedLimit retained working : Nat} {c : BudgetCharge}
    (started : start budget retainedLimit retained working = .ok c) :
    c.reservation.bytes = working ∧ c.reservation.budget.limit = budget.limit ∧ Keeps c 0 c ∧
      c.reservation.bytes + c.ceiling ≤ c.reservation.budget.limit := by
  unfold start MemoryBudget.charge at started
  dsimp only at started
  split at started
  · cases started
  split at started
  · cases started
    refine ⟨rfl, rfl, ⟨rfl, rfl, rfl, le_rfl, Nat.zero_le _, rfl⟩, ?_⟩
    dsimp only
    omega
  · cases started

/-- Whatever calls a walk makes and whatever the others hold: the reservation covers what was charged and stays below
the ceiling, a flush leaves it exact, and a refusal says that it is final exactly if the ceiling is exceeded. A call
within the ceiling is refused only for want of the bytes it needs, exactly if the budget never has those without the
granule that is reserved ahead. -/
theorem walk_exact {budget : MemoryBudget} {retainedLimit retained working : Nat} {c : BudgetCharge}
    (addressable : budget.limit < 2 ^ 64) (based : resolutionBaseBytes ≤ working)
    (started : start budget retainedLimit retained working = .ok c) (calls : List (Nat × Call)) (held : Nat) (call : Call) :
    let before := c.after calls
    let total := charged (calls ++ [(held, call)])
    let needed := working + total - before.reservation.bytes
    let available := budget.limit - (held + before.reservation.bytes)
    (match before.step (held, call) with
      | .ok _ now => working + total ≤ now.reservation.bytes ∧ now.reservation.bytes ≤ working + c.ceiling ∧
          (call = .flush → now.reservation.bytes = working + total)
      | .error _ now => now.failure.bind EngineError.cause = some .exceedsLimit ↔ c.ceiling < total) ∧
    ((total ≤ c.ceiling → (∃ e now, before.step (held, call) = .error e now) → available < needed) ↔
      (total ≤ c.ceiling → 0 < needed → needed ≤ available →
        needed + min expansionGranuleBytes (c.ceiling - total) ≤ available)) := by
  intro before total needed available
  obtain ⟨rfl, limit, keeps, inside⟩ := start_keeps started
  unfold resolutionBaseBytes at based
  have small : c.ceiling < 2 ^ 64 - 1 := by omega
  have kept := after_keeps small inside keeps calls
  have answers := step_answers small inside kept held call
  have sum : charged calls + call.bytes = total := by simp [total, charged]
  have bytes : before.reservation.bytes = _ + before.reserved := kept.bytes
  rw [sum] at answers
  change Answers c total before.reserved (held + before.reservation.bytes) _ _ (before.step (held, call)) at answers
  generalize expansionGranuleBytes = granule at answers ⊢
  cases done : before.step (held, call) with
  | ok _ now =>
    rw [done, Answers, limit] at answers
    obtain ⟨⟨_, _, bytes', _, within', _⟩, ⟨most, exact⟩, room⟩ := answers
    refine ⟨⟨by omega, by omega, fun flush => by rw [bytes', exact flush]⟩, iff_of_true (fun _ => nofun) ?_⟩
    intro fits positive enough
    have := room (by omega)
    omega
  | error e now =>
    rw [done, Answers, limit] at answers
    obtain ⟨_, more, cause, room⟩ := answers
    refine ⟨cause, fun only fits _ enough => ?_, fun spare fits _ => ?_⟩
    · have := only fits ⟨e, now, rfl⟩
      omega
    · have := room fits
      by_contra enough
      have := spare fits (by omega) (by omega)
      omega

/-- A budget of 1 MiB, of which a walk may use the half. -/
def half : BudgetCharge := ⟨⟨⟨0x100000, 0x10000⟩, "resolved metadata", 0x10000⟩, 0x70000, 0x70000, 0, 0, 0, none⟩

theorem half_started : start ⟨0x100000, 0⟩ 0x80000 0 0x10000 = .ok half := rfl

/-- A walk alone on its budget, a charge and a flush. -/
theorem walk_exact_alone : (half.after [(0, .charge 96), (0, .flush)]).reservation.bytes = 0x10060 := by
  have exact := (walk_exact (by decide) (by decide) half_started [(0, .charge 96)] 0 .flush).1
  exact exact.2.2 rfl

/-- The others leave a page. An entry of 96 bytes would fit in it, but is refused for the granule. -/
theorem entry_refused_for_granule :
    charged [(0xef000, .charge 96)] ≤ half.ceiling ∧ (∃ e now, half.step (0xef000, .charge 96) = .error e now) ∧
      96 ≤ 0x100000 - (0xef000 + half.reservation.bytes) :=
  ⟨by decide, ⟨_, _, rfl⟩, by decide⟩

end BudgetCharge
end Rarpar.Par3

import Rarpar.Algebra.PowerSums
import Rarpar.ReedSolomon.VandermondeCorrelate

namespace Rarpar
open GfSymbol Buffer Polynomial List Function

namespace VandermondeSolve
variable {words : Nat}

section Locator

theorem multiplyRoot_loop (root : Word) (n : Nat) (p : Nat → Word) (j : Nat) :
    (range n).reverse.foldl (fun p j =>
      update p j ((if 0 < j then p (j - 1) else 0) + Gf.mul root (p j))) p j =
      if j < n then (if 0 < j then p (j - 1) else 0) + root * p j else p j := by
  induction n generalizing p with
  | zero => simp
  | succ n ih =>
    rw [range_succ, reverse_append, reverse_singleton, singleton_append, foldl_cons, ih]
    rcases Nat.lt_trichotomy j n with below | rfl | above
    · have later : j < n + 1 := by omega
      have before : j - 1 ≠ n := by omega
      rw [if_pos below, if_pos later, update_of_ne before, update_of_ne below.ne]
    · rw [if_neg (lt_irrefl j), if_pos (Nat.lt_succ_self j), update_self, Gf.mul_eq]
    · have outside : ¬ j < n + 1 := by omega
      rw [if_neg above.asymm, if_neg outside, update_of_ne above.ne']

theorem multiplyRoot_coeff {Q : Word[X]} {degree : Nat} (bound : Q.natDegree ≤ degree) (root : Word) :
    multiplyRoot Q.coeff root degree = (Q * (X - C root)).coeff := by
  funext j
  refine (multiplyRoot_loop root (degree + 2) Q.coeff j).trans ?_
  rw [mul_sub, coeff_sub, coeff_mul_C, CharTwo.sub_eq_add, mul_comm root]
  cases j with
  | zero => rw [if_pos (by omega), if_neg (lt_irrefl 0), coeff_mul_X_zero]
  | succ j =>
    rw [if_pos (Nat.succ_pos j), coeff_mul_X, Nat.add_sub_cancel]
    split_ifs with outside
    · rfl
    · rw [coeff_eq_zero_of_natDegree_lt (by omega), coeff_eq_zero_of_natDegree_lt (by omega), zero_mul, add_zero]

/-- The locator as a polynomial. -/
noncomputable def locatorOf (roots : List Word) : Word[X] := (roots.map fun root => X - C root).prod

theorem locatorOf_append (front : List Word) (root : Word) :
    locatorOf (front ++ [root]) = locatorOf front * (X - C root) := by
  simp [locatorOf]

theorem natDegree_locatorOf (roots : List Word) : (locatorOf roots).natDegree = roots.length := by
  have card := natDegree_multiset_prod_X_sub_C_eq_card (roots : Multiset Word)
  rwa [Multiset.map_coe, Multiset.prod_coe, Multiset.coe_card] at card

theorem locatorPolynomial_eq (roots : List Word) : locatorPolynomial roots = (locatorOf roots).coeff := by
  induction roots using reverseRecOn with
  | nil =>
    funext j
    simp [locatorPolynomial, locatorOf, update_apply, coeff_one]
  | append_singleton front root ih =>
    rw [locatorPolynomial] at ih ⊢
    rw [zipIdx_append, foldl_append, ih, locatorOf_append]
    simp only [zipIdx_singleton, Nat.zero_add, foldl_cons, foldl_nil]
    exact multiplyRoot_coeff (natDegree_locatorOf front).le root

theorem derivativeLoop_eq (locator : Nat → Word) (square : Word) (count : Nat) (acc : Word) :
    derivativeLoop locator square count acc =
      acc * square ^ count + ∑ i ∈ Finset.range count, locator (2 * i + 1) * square ^ i := by
  induction count generalizing acc with
  | zero => simp [derivativeLoop]
  | succ count ih =>
    rw [derivativeLoop, ih, Gf.mul_eq, Finset.sum_range_succ]
    ring

/-- In characteristic two only the odd coefficients reach the derivative. -/
theorem sum_derivative (P : Word[X]) (x : Word) (count : Nat) :
    ∑ i ∈ Finset.range (2 * count), P.derivative.coeff i * x ^ i =
      ∑ i ∈ Finset.range count, P.coeff (2 * i + 1) * (x * x) ^ i := by
  induction count with
  | zero => simp
  | succ count ih =>
    have even : ((2 * count : Nat) : Word) + 1 = 1 := by
      rw [CharTwo.natCast_eq_mod, Nat.mul_mod_right, Nat.cast_zero, zero_add]
    have odd : ((2 * count + 1 : Nat) : Word) + 1 = 0 := by
      rw [Nat.cast_add, Nat.cast_one, even]
      exact CharTwo.add_self_eq_zero 1
    rw [Nat.mul_succ, Finset.sum_range_succ, Finset.sum_range_succ, Finset.sum_range_succ, ih, coeff_derivative,
      coeff_derivative, even, odd, mul_zero, zero_mul, add_zero, mul_one, pow_mul, pow_two]

theorem evaluateDerivative_eq {P : Word[X]} {degree : Nat} (bound : P.natDegree ≤ degree) (x : Word) :
    evaluateDerivative P.coeff degree x = P.derivative.eval x := by
  rw [evaluateDerivative, derivativeLoop_eq, zero_mul, zero_add, Gf.mul_eq, ← sum_derivative]
  rcases Nat.eq_zero_or_pos degree with rfl | positive
  · rw [natDegree_eq_zero.mp (Nat.le_zero.mp bound) |>.choose_spec.symm]
    simp
  · refine (eval_eq_sum_range' ?_ x).symm
    have lower := natDegree_derivative_le P
    omega

end Locator

section Groups

/-- The group that an unknown belongs to, and its entry there. -/
def residueOf (log : Nat) : Nat := crtInverse * (log % small) % small

def memberOf (entry : Nat × Nat) : Nat × Nat := (entry.2, crtInverse * (entry.1 % large) % large)

/-- The groups hold exactly the processed unknowns, and each slot is the position of its group. -/
structure GroupsOf (processed : List (Nat × Nat)) (state : (Nat → Option Nat) × List EvalGroup) : Prop where
  slot : ∀ {residue i}, state.1 residue = some i → ∃ group, state.2[i]? = some group ∧ group.small = residue
  sound : ∀ group ∈ state.2, ∀ member ∈ group.members,
    ∃ entry ∈ processed, memberOf entry = member ∧ residueOf entry.1 = group.small
  complete : ∀ entry ∈ processed, ∃ group ∈ state.2, memberOf entry ∈ group.members

theorem mem_modify_cases {α : Type*} {list : List α} {i : Nat} {f : α → α} {a : α} (member : a ∈ list.modify i f) :
    a ∈ list ∨ ∃ b, list[i]? = some b ∧ a = f b := by
  obtain ⟨j, at_j⟩ := mem_iff_getElem?.mp member
  rw [getElem?_modify] at at_j
  obtain ⟨b, known, rfl⟩ := Option.map_eq_some_iff.mp at_j
  by_cases here : i = j
  · subst here
    exact Or.inr ⟨b, known, if_pos rfl⟩
  · rw [if_neg here]
    exact Or.inl (mem_of_getElem? known)

theorem mem_modify {α : Type*} {list : List α} (i : Nat) (f : α → α) {a : α} (member : a ∈ list) :
    a ∈ list.modify i f ∨ f a ∈ list.modify i f := by
  obtain ⟨j, at_j⟩ := mem_iff_getElem?.mp member
  have moved : (list.modify i f)[j]? = some ((if i = j then f else id) a) := by
    rw [getElem?_modify, at_j]
    split <;> rfl
  split at moved
  · exact Or.inr (mem_of_getElem? moved)
  · exact Or.inl (mem_of_getElem? moved)

variable {processed : List (Nat × Nat)} {state : (Nat → Option Nat) × List EvalGroup} {entry : Nat × Nat}

section
variable (groups : GroupsOf processed state)
include groups

theorem GroupsOf.sound_append {group : EvalGroup} (known : group ∈ state.2)
    {member : Nat × Nat} (listed : member ∈ group.members) :
    ∃ other ∈ processed ++ [entry], memberOf other = member ∧ residueOf other.1 = group.small := by
  obtain ⟨other, done, found⟩ := groups.sound group known member listed
  exact ⟨other, mem_append_left _ done, found⟩

theorem GroupsOf.opened (entry : Nat × Nat) :
    GroupsOf (processed ++ [entry]) (update state.1 (residueOf entry.1) (some state.2.length),
      state.2 ++ [⟨residueOf entry.1, [memberOf entry]⟩]) where
  slot := by
    intro residue i found
    by_cases same : residue = residueOf entry.1
    · subst same
      simp only [update_self, Option.some.injEq] at found
      subst found
      exact ⟨_, getElem?_concat_length, rfl⟩
    · simp only [update_of_ne same] at found
      obtain ⟨group, at_i, small⟩ := groups.slot found
      refine ⟨group, ?_, small⟩
      rwa [List.getElem?_append_left (List.getElem?_eq_some_iff.mp at_i).1]
  sound := by
    intro group known member listed
    rcases mem_append.mp known with old | new
    · exact groups.sound_append old listed
    · cases mem_singleton.mp new
      cases mem_singleton.mp listed
      exact ⟨entry, mem_append_right _ mem_cons_self, rfl, rfl⟩
  complete := by
    intro other done
    rcases mem_append.mp done with old | new
    · obtain ⟨group, known, listed⟩ := groups.complete other old
      exact ⟨group, mem_append_left _ known, listed⟩
    · cases mem_singleton.mp new
      exact ⟨_, mem_append_right _ mem_cons_self, mem_cons_self⟩

theorem GroupsOf.extended {slot : Nat}
    (found : state.1 (residueOf entry.1) = some slot) :
    GroupsOf (processed ++ [entry]) (state.1, state.2.modify slot fun group =>
      { group with members := group.members ++ [memberOf entry] }) := by
  obtain ⟨home, at_slot, small⟩ := groups.slot found
  refine ⟨?_, ?_, ?_⟩
  · intro residue i known
    obtain ⟨group, at_i, same⟩ := groups.slot known
    by_cases here : slot = i
    · subst here
      exact ⟨{ group with members := group.members ++ [memberOf entry] }, by simp [at_i], same⟩
    · exact ⟨group, by simp [at_i, here], same⟩
  · intro group known member listed
    rcases mem_modify_cases known with old | ⟨other, at_other, rfl⟩
    · exact groups.sound_append old listed
    · cases Option.some.inj (at_slot.symm.trans at_other)
      rcases mem_append.mp listed with old | new
      · exact groups.sound_append (mem_of_getElem? at_slot) old
      · cases mem_singleton.mp new
        exact ⟨entry, mem_append_right _ mem_cons_self, rfl, small.symm⟩
  · intro other done
    rcases mem_append.mp done with old | new
    · obtain ⟨group, known, listed⟩ := groups.complete other old
      rcases mem_modify slot (fun group => { group with members := group.members ++ [memberOf entry] }) known
        with kept | grown
      · exact ⟨group, kept, listed⟩
      · exact ⟨_, grown, mem_append_left _ listed⟩
    · cases mem_singleton.mp new
      have grown : (state.2.modify slot fun group =>
          { group with members := group.members ++ [memberOf entry] })[slot]? =
          some { home with members := home.members ++ [memberOf entry] } := by
        simp [at_slot]
      exact ⟨_, mem_of_getElem? grown, mem_append_right _ mem_cons_self⟩

theorem addMember_groupsOf (entry : Nat × Nat) : GroupsOf (processed ++ [entry]) (addMember state entry) := by
  rw [addMember]
  split
  · exact groups.opened entry
  · rename_i found
    exact groups.extended found

end

theorem addMembers_groupsOf (entries : List (Nat × Nat)) :
    GroupsOf entries (entries.foldl addMember (fun _ => none, [])) := by
  induction entries using reverseRecOn with
  | nil => exact ⟨fun found => by simp at found, by simp, by simp⟩
  | append_singleton front entry ih =>
    rw [foldl_append]
    exact addMember_groupsOf ih entry

end Groups

section Evaluation
variable {plan : ConsecutiveSolvePlan} {logs : List Nat}

/-- The value that stage 2 writes for one unknown. -/
def evaluation (plan : ConsecutiveSolvePlan) (correlation : Nat → Region words) (c : Nat) : Region words :=
  ∑ t ∈ Finset.range plan.rows, (plan.scale.getD c 0 * plan.constants.getD c 0 ^ t) • correlation t

theorem ladderTerms_sum (g ladder : Word) (sources : List (Region words)) :
    ((ConsecutiveSolvePlan.ladderTerms g ladder sources).map fun term => term.1 • term.2).sum =
      ∑ t ∈ Finset.range sources.length, (ladder * g ^ t) • sources.getD t 0 := by
  induction sources generalizing ladder with
  | nil => simp [ConsecutiveSolvePlan.ladderTerms]
  | cons source rest ih =>
    rw [ConsecutiveSolvePlan.ladderTerms, map_cons, sum_cons, ih, length_cons, Finset.sum_range_succ',
      add_comm, Gf.mul_eq, pow_zero, mul_one]
    simp only [getD_cons_succ, getD_cons_zero, mul_assoc, ← pow_succ']

theorem evaluateDirect_apply (correlation rows : Nat → Region words) {c : Nat} (inside : c < plan.rows) :
    plan.evaluateDirect correlation rows c = evaluation plan correlation c := by
  refine (write_range _ _ inside).trans ?_
  rw [fold_eq, zero_add, ladderTerms_sum, length_map, length_range, evaluation]
  refine Finset.sum_congr rfl fun t member => ?_
  have entry : ((range plan.rows).map correlation).getD t 0 = correlation t := by
    rw [getD_eq_getElem _ _ (by simpa using member), getElem_map, getElem_range]
  rw [entry]

/-- The two halves of a power recombine. -/
theorem split_power (log t : Nat) :
    (power large ^ (residueOf log * (t % small) % small) *
      power small ^ ((crtInverse * (log % large) % large) * (t % large) % large) : Word) = power log ^ t := by
  have half (m : Nat) : (crtInverse * (log % m) % m) * (t % m) % m ≡ crtInverse * (log * t) [MOD m] := by
    rw [← Nat.mul_assoc]
    refine (Nat.mod_modEq _ _).trans (Nat.ModEq.mul ?_ (Nat.mod_modEq t m))
    exact (Nat.mod_modEq _ _).trans ((Nat.mod_modEq log m).mul_left crtInverse)
  have exponent := RootSums.recombine (by decide : large * crtInverse + small * crtInverse ≡ 1 [MOD small * large])
    (half small) (half large)
  unfold residueOf
  rw [power_pow, power_pow, power_mul_power, power_pow, power_eq_pow, power_eq_pow (log * t)]
  refine pow_eq_pow_of_modEq exponent ?_
  rw [← power_eq_pow]
  exact Gf.power_order

theorem alpha_eq (logs : List Nat) (i : Nat) : (GroupedEval.build logs).alpha i = power large ^ i :=
  (Gf.pow_eq _ i).trans (congrArg (· ^ i) (pow_two_eq large))

theorem beta_eq (logs : List Nat) (j : Nat) : (GroupedEval.build logs).beta j = power small ^ j :=
  (Gf.pow_eq _ j).trans (congrArg (· ^ j) (pow_two_eq small))

theorem fillBuckets_apply (grouped : GroupedEval) (group : EvalGroup) (correlation buckets : Nat → Region words)
    {j : Nat} (inside : j < large) :
    plan.fillBuckets grouped group correlation buckets j =
      ∑ i ∈ Finset.range ((plan.rows - j + (large - 1)) / large),
        grouped.alpha (group.small * ((j + large * i) % small) % small) • correlation (j + large * i) := by
  have strided (n : Nat) : range' j n large = (range n).map fun i => j + large * i :=
    ext_getElem (by simp) (by simp)
  refine (write_range _ _ inside).trans ?_
  rw [strided, map_map]
  exact fold_range _ _ _

/-- The bucket sums of a group serve each of its members. -/
theorem sum_buckets (group : EvalGroup) (correlation buckets : Nat → Region words) {row log : Nat} (scale : Word)
    (residue : residueOf log = group.small) :
    ∑ j ∈ Finset.range large,
        Gf.mul scale ((GroupedEval.build logs).beta ((memberOf (log, row)).2 * j % large)) •
          plan.fillBuckets (.build logs) group correlation buckets j =
      ∑ t ∈ Finset.range plan.rows, (scale * power log ^ t) • correlation t := by
  rw [← Accumulate.sum_strided _ plan.rows (by decide : 0 < large)]
  refine Finset.sum_congr rfl fun j member => ?_
  have bound := Finset.mem_range.mp member
  rw [fillBuckets_apply _ _ _ _ bound, Finset.smul_sum]
  refine Finset.sum_congr rfl fun i _ => ?_
  have position : (j + large * i) % large = j := by
    rw [Nat.add_mul_mod_self_left, Nat.mod_eq_of_lt bound]
  rw [smul_smul, Gf.mul_eq, alpha_eq, beta_eq, ← split_power log (j + large * i), position, residue, mul_assoc,
    mul_comm (power small ^ _), memberOf]

/-- The members of the group are unknowns of the plan, each with its own residues. -/
def Serves (logs : List Nat) (group : EvalGroup) : Prop :=
  ∀ member ∈ group.members, ∃ entry ∈ logs.zipIdx, memberOf entry = member ∧ residueOf entry.1 = group.small

section
variable (constants : plan.constants = logs.map power)
include constants

theorem evaluateGrouped_apply {group : EvalGroup}
    (serves : Serves logs group) (correlation : Nat → Region words)
    (state : (Nat → Region words) × (Nat → Region words)) (c : Nat) :
    (plan.evaluateGrouped (.build logs) correlation state group).1 c =
      if c ∈ group.members.map Prod.fst then evaluation plan correlation c else state.1 c := by
  have value : ∀ member ∈ group.members, fold 0 ((range large).map fun j =>
      (Gf.mul (plan.scale.getD member.1 0) ((GroupedEval.build logs).beta (member.2 * j % large)),
        plan.fillBuckets (.build logs) group correlation state.2 j)) = evaluation plan correlation member.1 := by
    intro member listed
    obtain ⟨⟨log, row⟩, known, rfl, residue⟩ := serves member listed
    have at_row : plan.constants.getD row 0 = power log := by
      rw [constants, getD_eq_getElem?_getD, getElem?_map, mem_zipIdx_iff_getElem?.mp known]
      rfl
    rw [fold_range, sum_buckets group _ state.2 _ residue, evaluation]
    simp only [memberOf, at_row]
  have cells : (plan.evaluateGrouped (.build logs) correlation state group).1 =
      write (group.members.map fun member => (member.1, evaluation plan _ member.1)) state.1 :=
    congrArg (write · state.1) (map_congr_left fun member listed => congrArg _ (value member listed))
  rw [cells]
  split
  · rename_i listed
    obtain ⟨member, known, rfl⟩ := mem_map.mp listed
    refine write_map Prod.fst (fun member => evaluation plan _ member.1) _ known ?_
    intro other _ same
    rw [same]
  · rename_i absent
    refine write_of_not_mem ?_ _
    rintro cell listed rfl
    obtain ⟨member, known, rfl⟩ := mem_map.mp listed
    exact absent (mem_map_of_mem known)

/-- Once a row is evaluated, or a remaining group holds it, the run leaves it evaluated. -/
theorem evaluateGroups_apply (correlation : Nat → Region words)
    {groups : List EvalGroup} (serve : ∀ group ∈ groups, Serves logs group)
    (state : (Nat → Region words) × (Nat → Region words)) {c : Nat}
    (covered : (∃ group ∈ groups, c ∈ group.members.map Prod.fst) ∨ state.1 c = evaluation plan correlation c) :
    (groups.foldl (plan.evaluateGrouped (.build logs) correlation) state).1 c = evaluation plan correlation c := by
  induction groups generalizing state with
  | nil =>
    rcases covered with ⟨_, absurd_member, _⟩ | done
    · simp at absurd_member
    · exact done
  | cons group rest ih =>
    refine ih (fun other listed => serve other (mem_cons_of_mem group listed)) _ ?_
    rw [evaluateGrouped_apply constants (serve group mem_cons_self)]
    by_cases here : c ∈ group.members.map Prod.fst
    · exact Or.inr (if_pos here)
    · rw [if_neg here]
      rcases covered with ⟨other, listed, member⟩ | done
      · rcases mem_cons.mp listed with rfl | later
        · exact absurd member here
        · exact Or.inl ⟨other, later, member⟩
      · exact Or.inr done

theorem grouped_apply (correlation : Nat → Region words)
    (state : (Nat → Region words) × (Nat → Region words)) {c : Nat} (inside : c < logs.length) :
    ((GroupedEval.build logs).groups.foldl (plan.evaluateGrouped (.build logs) correlation) state).1 c =
      evaluation plan correlation c := by
  have groups := addMembers_groupsOf logs.zipIdx
  refine evaluateGroups_apply constants _ groups.sound state (Or.inl ?_)
  have known : (logs.get ⟨c, inside⟩, c) ∈ logs.zipIdx := by
    rw [mem_zipIdx_iff_getElem?]
    exact getElem?_eq_getElem inside
  obtain ⟨group, listed, member⟩ := groups.complete _ known
  exact ⟨group, listed, mem_map_of_mem member⟩

end

end Evaluation
end VandermondeSolve
end Rarpar

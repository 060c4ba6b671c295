import Mathlib.Data.Finset.Sort

namespace Rarpar.GreedyRows
open List Nat
variable {regular : List Nat → Prop} [DecidablePred regular] {n : Nat} {rows : List Nat}

/-- Takes the next row when fewer than `n` are taken and the rows stay regular. -/
def step (regular : List Nat → Prop) [DecidablePred regular] (n : Nat) (taken : List Nat) (row : Nat) : List Nat :=
  if taken.length < n ∧ regular (taken ++ [row]) then taken ++ [row] else taken

/-- The rows that one pass over `rows` takes. -/
def greedy (regular : List Nat → Prop) [DecidablePred regular] (n : Nat) (rows : List Nat) : List Nat :=
  rows.foldl (step regular n) []

theorem foldl_step_length_le_add (taken rows : List Nat) :
    (rows.foldl (step regular n) taken).length ≤ taken.length + rows.length := by
  induction rows generalizing taken with
  | nil => exact le_rfl
  | cons row rest ih =>
    have grow : (step regular n taken row).length ≤ taken.length + 1 := by
      unfold step
      split
      · rw [length_append, length_singleton]
      · exact le_succ _
    have rest := ih (step regular n taken row)
    rw [foldl_cons, length_cons]
    omega

theorem greedy_length_le_length (rows : List Nat) : (greedy regular n rows).length ≤ rows.length := by
  have bound := @foldl_step_length_le_add regular _ n [] rows
  rwa [length_nil, zero_add] at bound

/-- Rows whose prefixes are all regular are taken one after another. -/
theorem foldl_step_of_regular {taken : List Nat} (bound : taken.length + rows.length ≤ n)
    (prefixes : ∀ k < rows.length, regular (taken ++ rows.take (k + 1))) :
    rows.foldl (step regular n) taken = taken ++ rows := by
  induction rows generalizing taken with
  | nil => rw [foldl_nil, append_nil]
  | cons row rest ih =>
    rw [length_cons] at bound
    have first : step regular n taken row = taken ++ [row] := by
      refine if_pos ⟨by omega, ?_⟩
      exact prefixes 0 (succ_pos _)
    rw [foldl_cons, first, ih, append_assoc, singleton_append]
    · rw [length_append, length_singleton]
      omega
    · intro k inside
      have next := prefixes (k + 1) (succ_lt_succ inside)
      rwa [take_succ_cons, append_cons] at next

theorem foldl_step_of_full {taken : List Nat} (rows : List Nat) (full : taken.length = n) :
    rows.foldl (step regular n) taken = taken := by
  induction rows with
  | nil => rfl
  | cons row rest ih =>
    have kept : step regular n taken row = taken := if_neg fun room => by omega
    rw [foldl_cons, kept, ih]

theorem foldl_step_take {k : Nat} (inside : k ≤ rows.length) (room : k ≤ n)
    (prefixes : ∀ i < k, regular (rows.take (i + 1))) : (rows.take k).foldl (step regular n) [] = rows.take k := by
  have size := length_take_of_le inside
  rw [foldl_step_of_regular (by rwa [size, length_nil, zero_add]), nil_append]
  intro i below
  rw [size] at below
  rw [nil_append, take_take, min_eq_left below]
  exact prefixes i below

/-- A selection with regular prefixes at the head of the rows is the greedy one. -/
theorem greedy_of_regular_take (enough : n ≤ rows.length)
    (prefixes : ∀ k < n, regular (rows.take (k + 1))) : greedy regular n rows = rows.take n := by
  unfold greedy
  conv_lhs => rw [← take_append_drop n rows, foldl_append, foldl_step_take enough le_rfl prefixes]
  exact foldl_step_of_full _ (length_take_of_le enough)

/-- A row that is singular after a regular prefix never matters. -/
theorem greedy_eraseIdx {k : Nat} (inside : k < rows.length) (room : k < n)
    (prefixes : ∀ i < k, regular (rows.take (i + 1))) (singular : ¬ regular (rows.take (k + 1))) :
    greedy regular n (rows.eraseIdx k) = greedy regular n rows := by
  have head := foldl_step_take inside.le room.le prefixes
  have skipped : step regular n (rows.take k) rows[k] = rows.take k := by
    refine if_neg fun taken => singular ?_
    rw [← take_concat_get' _ _ inside]
    exact taken.2
  unfold greedy
  rw [eraseIdx_eq_take_drop_succ, foldl_append, head]
  conv_rhs =>
    rw [← take_append_drop k rows, foldl_append, head, drop_eq_getElem_cons inside, foldl_cons,
      skipped]

/-- The rows that take, one after another, the least stored row that keeps the rows
regular. -/
structure Chain (regular : List Nat → Prop) (stored : Set Nat) (rows : List Nat) : Prop where
  sorted : rows.Pairwise (· < ·)
  member : ∀ row ∈ rows, row ∈ stored
  prefixes : ∀ k < rows.length, regular (rows.take (k + 1))
  least : ∀ (k : Nat) (inside : k < rows.length), ∀ row ∈ stored, (∀ earlier ∈ rows.take k, earlier < row) →
    row < rows[k] → ¬ regular (rows.take k ++ [row])

section Chains
variable {stored : Set Nat} {rows' : List Nat} {k : Nat}
omit [DecidablePred regular]

theorem Chain.earlier_lt (chain : Chain regular stored rows) (inside : k < rows.length) :
    ∀ earlier ∈ rows.take k, earlier < rows[k] := by
  intro earlier member
  obtain ⟨i, before, rfl⟩ := mem_take_iff_getElem.mp member
  exact pairwise_iff_getElem.mp chain.sorted i k _ inside (by omega)

/-- A row that may follow a chain's first rows does not come before the chain's next. -/
theorem Chain.getElem_le (chain : Chain regular stored rows) (chain' : Chain regular stored rows')
    (same : rows.take k = rows'.take k) (inside : k < rows.length) (inside' : k < rows'.length) : rows[k] ≤ rows'[k] := by
  by_contra before
  refine chain.least k inside rows'[k] (chain'.member _ (getElem_mem _)) ?_ (not_le.mp before) ?_
  · rw [same]
    exact chain'.earlier_lt inside'
  · rw [same, take_concat_get' _ _ inside']
    exact chain'.prefixes k inside'

theorem Chain.take_eq (chain : Chain regular stored rows) (chain' : Chain regular stored rows')
    (inside : k ≤ rows.length) (inside' : k ≤ rows'.length) : rows.take k = rows'.take k := by
  induction k with
  | zero => rfl
  | succ k ih =>
    have same := ih (by omega) (by omega)
    rw [← take_concat_get' _ _ inside, ← take_concat_get' _ _ inside', same,
      le_antisymm (chain.getElem_le chain' same inside inside') (chain'.getElem_le chain same.symm inside' inside)]

theorem Chain.widen {front rows : List Nat} {x : Nat} (chain : Chain regular {row | row ∈ front} rows)
    (top : ∀ row ∈ front, row < x) : Chain regular {row | row ∈ front ++ [x]} rows where
  sorted := chain.sorted
  member row listed := mem_append_left _ (chain.member row listed)
  prefixes := chain.prefixes
  least k inside row listed above before := by
    rcases mem_append.mp listed with listed | fresh
    · exact chain.least k inside row listed above before
    · have last := top _ (chain.member _ (getElem_mem inside))
      rw [mem_singleton] at fresh
      omega

theorem Chain.concat {front rows : List Nat} {x : Nat} (chain : Chain regular {row | row ∈ front} rows)
    (top : ∀ row ∈ front, row < x) (next : regular (rows ++ [x]))
    (left : ∀ row ∈ front, (∀ earlier ∈ rows, earlier < row) → ¬ regular (rows ++ [row])) :
    Chain regular {row | row ∈ front ++ [x]} (rows ++ [x]) where
  sorted := pairwise_append.mpr
    ⟨chain.sorted, pairwise_singleton _ _, fun row listed y last => by
      rw [mem_singleton.mp last]
      exact top row (chain.member row listed)⟩
  member row listed := by
    rcases mem_append.mp listed with listed | last
    · exact mem_append_left _ (chain.member row listed)
    · exact mem_append_right _ last
  prefixes k inside := by
    rw [length_append, length_singleton, Nat.lt_succ_iff_lt_or_eq] at inside
    rcases inside with inside | rfl
    · rw [take_append_of_le_length inside]
      exact chain.prefixes k inside
    · rwa [take_of_length_le (by rw [length_append, length_singleton])]
  least k inside row listed above before := by
    rw [length_append, length_singleton, Nat.lt_succ_iff_lt_or_eq] at inside
    rcases inside with inside | rfl
    · rw [take_append_of_le_length inside.le] at above ⊢
      rw [getElem_append_left inside] at before
      exact (chain.widen top).least k inside row listed above before
    · rw [take_append_of_le_length le_rfl, take_length] at above ⊢
      rw [getElem_concat_length rfl] at before
      rcases mem_append.mp listed with listed | fresh
      · exact left row listed above
      · rw [mem_singleton] at fresh
        omega

end Chains

/-- What a pass has taken is a chain, and every row it left behind is singular. -/
theorem chain_foldl_step (sorted : rows.Pairwise (· < ·)) :
    Chain regular {row | row ∈ rows} (greedy regular n rows) ∧
      ((greedy regular n rows).length < n → ∀ row ∈ rows, (∀ earlier ∈ greedy regular n rows, earlier < row) →
        ¬ regular (greedy regular n rows ++ [row])) := by
  induction rows using reverseRecOn with
  | nil =>
    refine ⟨⟨List.Pairwise.nil, ?_, ?_, ?_⟩, ?_⟩
    · exact fun row member => absurd member not_mem_nil
    · exact fun k inside => absurd inside (not_lt_zero k)
    · exact fun k inside => absurd inside (not_lt_zero k)
    · exact fun _ row member => absurd member not_mem_nil
  | append_singleton front x ih =>
    obtain ⟨frontSorted, -, below⟩ := pairwise_append.mp sorted
    obtain ⟨chain, left⟩ := ih frontSorted
    have last : greedy regular n (front ++ [x]) = step regular n (greedy regular n front) x :=
      foldl_concat _ _ _ _
    have top (row : Nat) (member : row ∈ front) : row < x := below row member x mem_cons_self
    rw [last]
    by_cases take : (greedy regular n front).length < n ∧ regular (greedy regular n front ++ [x])
    · rw [step, if_pos take]
      refine ⟨chain.concat top take.2 (left take.1), fun _ row listed above => ?_⟩
      have beyond := above x (mem_append_right _ mem_cons_self)
      rcases mem_append.mp listed with listed | fresh
      · have := top row listed
        omega
      · rw [mem_singleton] at fresh
        omega
    · rw [step, if_neg take]
      refine ⟨chain.widen top, fun room row listed above => ?_⟩
      rcases mem_append.mp listed with listed | fresh
      · exact left room row listed above
      · rw [mem_singleton.mp fresh]
        exact fun next => take ⟨room, next⟩

theorem greedy_length_le (rows : List Nat) : (greedy regular n rows).length ≤ n := by
  induction rows using reverseRecOn with
  | nil => exact Nat.zero_le _
  | append_singleton front x ih =>
    rw [greedy, foldl_concat, step]
    split_ifs with room
    · rw [length_append]
      exact room.1
    · exact ih

theorem greedy_of_chain {stored : Finset Nat} (chain : Chain regular stored rows)
    (full : rows.length = n) : greedy regular n stored.sort = rows := by
  obtain ⟨chain', left⟩ := @chain_foldl_step regular _ n _ stored.sortedLT_sort.pairwise
  simp only [Finset.mem_sort] at chain' left
  have bound := @greedy_length_le regular _ n stored.sort
  have same := chain'.take_eq chain le_rfl (bound.trans full.ge)
  rw [take_length] at same
  rcases bound.lt_or_eq with short | whole
  · have inside := short.trans_eq full.symm
    have next := chain.prefixes _ inside
    rw [← take_concat_get' _ _ inside, ← same] at next
    exact absurd next (left short _ (chain.member _ (getElem_mem inside)) fun earlier member =>
      chain.earlier_lt inside earlier (by rwa [← same]))
  · rw [same, whole, ← full, take_length]

theorem chain_greedy (stored : Finset Nat) : Chain regular stored (greedy regular n stored.sort) := by
  have chain := (@chain_foldl_step regular _ n _ stored.sortedLT_sort.pairwise).1
  have same : {row | row ∈ stored.sort} = (stored : Set Nat) := Set.ext fun row => Finset.mem_sort _
  rwa [same] at chain

end Rarpar.GreedyRows

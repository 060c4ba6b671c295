import Rarpar.Data.BitString

namespace Rarpar.CanonicalCode
open List Nat

/-- How many symbols have a code of length `l`; a length of zero means no code. -/
def count (lengths : List Nat) (l : Nat) : Nat := if l = 0 then 0 else lengths.count l

/-- The first code of each length, twice the one after the last code of the length before. -/
def firstCode (lengths : List Nat) : Nat → Nat
  | 0 => 0
  | l + 1 => 2 * (firstCode lengths l + count lengths l)

/-- The code after the last one of a length. -/
def limit (lengths : List Nat) (l : Nat) : Nat := firstCode lengths l + count lengths l

/-- How many earlier symbols have a code of the same length. -/
def rank (lengths : List Nat) (sym : Nat) : Nat := (lengths.take sym).count (lengths.getD sym 0)

/-- The canonical code of a symbol: codes are ordered by their length, then by their symbol. -/
def code (lengths : List Nat) (sym : Nat) : Nat := firstCode lengths (lengths.getD sym 0) + rank lengths sym

/-- Kraft's inequality, scaled to codes of at most `width` bits. -/
def Kraft (width : Nat) (lengths : List Nat) : Prop :=
  ((lengths.filter (· ≠ 0)).map fun l => 2 ^ (width - l)).sum ≤ 2 ^ width

instance (width : Nat) (lengths : List Nat) : Decidable (Kraft width lengths) :=
  inferInstanceAs (Decidable (_ ≤ _))

/-- The limit of a length, left aligned in a word of `width` bits. -/
def threshold (lengths : List Nat) (width l : Nat) : Nat := limit lengths l * 2 ^ (width - l)

variable {lengths : List Nat} {width : Nat}

theorem limit_succ (lengths : List Nat) (l : Nat) :
    limit lengths (l + 1) = 2 * limit lengths l + count lengths (l + 1) := rfl

theorem count_cons (x : Nat) (rest : List Nat) (l : Nat) :
    count (x :: rest) l = count rest l + if l ≠ 0 ∧ x = l then 1 else 0 := by
  unfold count
  by_cases zero : l = 0 <;> simp [zero, List.count_cons]

theorem limit_cons (x : Nat) (rest : List Nat) (l : Nat) :
    limit (x :: rest) l = limit rest l + if x ≠ 0 ∧ x ≤ l then 2 ^ (l - x) else 0 := by
  induction l with
  | zero => simp [limit, firstCode, count]
  | succ l ih =>
    rw [limit_succ, limit_succ, ih, count_cons]
    by_cases early : x ≠ 0 ∧ x ≤ l
    · have later : x ≠ 0 ∧ x ≤ l + 1 := by omega
      have other : ¬ (l + 1 ≠ 0 ∧ x = l + 1) := by omega
      have shift : l + 1 - x = l - x + 1 := by omega
      rw [if_pos early, if_pos later, if_neg other, shift, pow_succ]
      ring
    · by_cases here : x = l + 1
      · subst here
        simp
        ring
      · have never : ¬ (x ≠ 0 ∧ x ≤ l + 1) := by omega
        have other : ¬ (l + 1 ≠ 0 ∧ x = l + 1) := by omega
        rw [if_neg early, if_neg never, if_neg other]
        ring

/-- The Kraft sum is what the recurrence of the first codes adds up. -/
theorem limit_eq_sum (bounded : ∀ l ∈ lengths, l ≤ width) :
    limit lengths width = ((lengths.filter (· ≠ 0)).map fun l => 2 ^ (width - l)).sum := by
  induction lengths with
  | nil =>
    have zero (l : Nat) : firstCode [] l = 0 := by
      induction l with
      | zero => rfl
      | succ l ih => simp [firstCode, count, ih]
    simp [limit, zero, count]
  | cons x rest ih =>
    have le := bounded x mem_cons_self
    rw [limit_cons, ih fun l member => bounded l (mem_cons_of_mem x member)]
    by_cases zero : x = 0
    · simp [zero]
    · simp only [ne_eq, zero, not_false_eq_true, le, and_self, if_true, decide_true, filter_cons_of_pos,
        map_cons, sum_cons]
      omega

theorem limit_mul_le (lengths : List Nat) {l : Nat} (le : l ≤ width) :
    limit lengths l * 2 ^ (width - l) ≤ limit lengths width := by
  induction width, le using le_induction with
  | base => simp
  | succ width le ih =>
    have shift : width + 1 - l = width - l + 1 := by omega
    rw [limit_succ, shift, pow_succ, ← mul_assoc]
    omega

theorem limit_le (bounded : ∀ l ∈ lengths, l ≤ width) (kraft : Kraft width lengths) {l : Nat} (le : l ≤ width) :
    limit lengths l ≤ 2 ^ l := by
  have total := (limit_eq_sum bounded).trans_le kraft
  have scaled := (limit_mul_le lengths le).trans total
  have split : 2 ^ width = 2 ^ l * 2 ^ (width - l) := by rw [← Nat.pow_add, Nat.add_sub_cancel' le]
  rw [split] at scaled
  exact Nat.le_of_mul_le_mul_right scaled (Nat.two_pow_pos _)

theorem threshold_mono (lengths : List Nat) (width : Nat) {l m : Nat} (le : l ≤ m) (inside : m ≤ width) :
    threshold lengths width l ≤ threshold lengths width m := by
  have scaled := mul_le_mul_right (2 ^ (width - m)) (limit_mul_le lengths le)
  rw [mul_assoc, ← pow_add, show m - l + (width - m) = width - l by omega] at scaled
  exact scaled

/-- The threshold of a length is the first code of the next, left aligned. -/
theorem threshold_pred (lengths : List Nat) {l : Nat} (positive : 0 < l) (inside : l ≤ width) :
    threshold lengths width (l - 1) = firstCode lengths l * 2 ^ (width - l) := by
  obtain ⟨l, rfl⟩ := exists_eq_succ_of_ne_zero positive.ne'
  have shift : width - l = width - (l + 1) + 1 := by omega
  rw [threshold, succ_sub_one, shift, pow_succ]
  show limit lengths l * (2 ^ (width - (l + 1)) * 2) = 2 * limit lengths l * 2 ^ (width - (l + 1))
  ring

/-- A word whose leading bits are below the limit of a length but not below the first code of it
lies between the thresholds of that length, and above all the shorter ones. -/
theorem between_thresholds (width : Nat) {l word : Nat} (positive : 0 < l) (inside : l ≤ width)
    (first : firstCode lengths l ≤ word / 2 ^ (width - l)) (last : word / 2 ^ (width - l) < limit lengths l) :
    (∀ i < l, threshold lengths width i ≤ word) ∧ word < threshold lengths width l := by
  constructor
  · intro i below
    calc threshold lengths width i
        ≤ threshold lengths width (l - 1) := threshold_mono lengths width (by omega) (by omega)
      _ = firstCode lengths l * 2 ^ (width - l) := threshold_pred lengths positive inside
      _ ≤ word / 2 ^ (width - l) * 2 ^ (width - l) := mul_le_mul_right _ first
      _ ≤ word := div_mul_le_self _ _
  · exact (Nat.div_lt_iff_lt_mul (Nat.two_pow_pos _)).mp last

section Symbols
variable {sym : Nat}

theorem rank_lt (inside : sym < lengths.length) (coded : lengths.getD sym 0 ≠ 0) :
    rank lengths sym < count lengths (lengths.getD sym 0) := by
  have most := (take_sublist (sym + 1) lengths).count_le (lengths.getD sym 0)
  rw [take_succ_eq_append_getElem inside, ← getD_eq_getElem _ 0 inside, count_append, count_singleton_self] at most
  rw [rank, count, if_neg coded]
  exact most

theorem code_lt_limit (inside : sym < lengths.length) (coded : lengths.getD sym 0 ≠ 0) :
    code lengths sym < limit lengths (lengths.getD sym 0) :=
  Nat.add_lt_add_left (rank_lt inside coded) _

/-- Under Kraft's inequality a code has room in its length. -/
theorem code_lt (bounded : ∀ l ∈ lengths, l ≤ width) (kraft : Kraft width lengths) (inside : sym < lengths.length)
    (coded : lengths.getD sym 0 ≠ 0) : code lengths sym < 2 ^ lengths.getD sym 0 := by
  have le : lengths.getD sym 0 ≤ width := by
    rw [getD_eq_getElem _ _ inside]
    exact bounded _ (getElem_mem inside)
  exact (code_lt_limit inside coded).trans_le (limit_le bounded kraft le)

/-- The symbols with a code of length `l`, in order, counted from `start`. -/
def ofLength (lengths : List Nat) (start l : Nat) : List Nat :=
  ((lengths.zipIdx start).filter fun entry => entry.1 = l).map Prod.snd

theorem ofLength_rank (lengths : List Nat) (start : Nat) {l : Nat} (at_ : lengths[sym]? = some l) :
    (ofLength lengths start l)[(lengths.take sym).count l]? = some (start + sym) := by
  induction lengths generalizing start sym with
  | nil => simp at at_
  | cons x rest ih =>
    cases sym with
    | zero =>
      have same : x = l := by simpa using at_
      simp [ofLength, same]
    | succ sym =>
      have later := ih (start + 1) (show rest[sym]? = some l by simpa using at_)
      rw [show start + 1 + sym = start + (sym + 1) by omega] at later
      by_cases same : x = l <;> simpa [ofLength, same] using later

/-- The bits of a code, most significant first. -/
def codeword (lengths : List Nat) (sym : Nat) : List Bool :=
  (List.range (lengths.getD sym 0)).map fun i => (code lengths sym).testBit (lengths.getD sym 0 - 1 - i)

def encode (lengths symbols : List Nat) : List Bool := symbols.flatMap (codeword lengths)

/-- A stream that carries a bit string at a position. -/
def Carries (bits : Nat → Bool) (pos : Nat) (word : List Bool) : Prop :=
  ∀ i, (below : i < word.length) → bits (pos + i) = word[i]

theorem codeword_length (lengths : List Nat) (sym : Nat) : (codeword lengths sym).length = lengths.getD sym 0 := by
  simp [codeword]

theorem Carries.append {bits : Nat → Bool} {pos : Nat} {first rest : List Bool} (carries : Carries bits pos (first ++ rest)) :
    Carries bits pos first ∧ Carries bits (pos + first.length) rest := by
  constructor
  · intro i below
    rw [carries i (by rw [length_append]; omega), getElem_append_left below]
  · intro i below
    have later := carries (first.length + i) (by rw [length_append]; omega)
    rw [← add_assoc] at later
    rw [later, getElem_append_right (le_add_right _ _)]
    congr 1
    omega

/-- Where a code is carried, its bits write the code. -/
theorem Carries.field_eq {bits : Nat → Bool} {pos : Nat} (carries : Carries bits pos (codeword lengths sym))
    (bound : code lengths sym < 2 ^ lengths.getD sym 0) :
    BitString.field bits pos (lengths.getD sym 0) = code lengths sym := by
  apply eq_of_testBit_eq
  intro i
  rw [BitString.testBit_field]
  by_cases inside : i < lengths.getD sym 0
  · have here := carries (lengths.getD sym 0 - 1 - i) (by rw [codeword_length]; omega)
    have index : lengths.getD sym 0 - 1 - (lengths.getD sym 0 - 1 - i) = i := by omega
    simp only [codeword, getElem_map, getElem_range, index] at here
    rw [here, decide_eq_true inside, Bool.true_and]
  · have high : code lengths sym < 2 ^ i := bound.trans_le (Nat.pow_le_pow_right (by omega) (Nat.not_lt.mp inside))
    rw [decide_eq_false inside, Bool.false_and, testBit_lt_two_pow high]

end Symbols

end Rarpar.CanonicalCode

import Rarpar.Data.LexicalWalk
import Rarpar.Unrar.Path

namespace Rarpar.Unrar
open PathBytes List

/-! ### Components -/

section Components
variable {path rest : PathBytes} {byte : UInt8}

theorem components_slash (rest : PathBytes) : components (slash :: rest) = [] :: components rest := by
  rw [components, splitOn, splitOnP_cons_eq_if_modifyHead, if_pos (by simp)]
  rfl

theorem components_cons (other : byte ≠ slash) :
    components (byte :: rest) = (components rest).modifyHead (byte :: ·) := by
  rw [components, splitOn, splitOnP_cons_eq_if_modifyHead, if_neg (by simpa using other)]
  rfl

theorem exists_components (path : PathBytes) : ∃ first more, components path = first :: more :=
  exists_cons_of_ne_nil (splitOnP_ne_nil _ _)

/-- What stands before a separator or the end is the first component. -/
theorem components_eq {first tail : PathBytes} (clean : slash ∉ first) (bound : tail.head?.all (· == slash) = true) :
    ∃ more, components (first ++ tail) = first :: more ∧ (more = [] ↔ tail = []) := by
  induction first with
  | nil =>
    cases tail with
    | nil => exact ⟨[], rfl, iff_of_true rfl rfl⟩
    | cons byte rest =>
      obtain rfl : byte = slash := by simpa using bound
      refine ⟨components rest, components_slash rest, iff_of_false (splitOnP_ne_nil _ _) (cons_ne_nil _ _)⟩
  | cons byte rest ih =>
    rw [mem_cons, not_or] at clean
    obtain ⟨more, known, ends⟩ := ih clean.2
    refine ⟨more, ?_, ends⟩
    rw [cons_append, components_cons (Ne.symm clean.1), known]
    rfl

theorem exists_first (path : PathBytes) : ∃ first tail more, path = first ++ tail ∧ slash ∉ first ∧
    tail.head?.all (· == slash) = true ∧ components path = first :: more ∧ (more = [] ↔ tail = []) := by
  obtain ⟨first, tail, rfl, clean, bound⟩ : ∃ first tail, path = first ++ tail ∧ slash ∉ first ∧
      tail.head?.all (· == slash) = true := by
    induction path with
    | nil => exact ⟨[], [], rfl, not_mem_nil, rfl⟩
    | cons byte rest ih =>
      by_cases here : byte = slash
      · exact ⟨[], byte :: rest, rfl, not_mem_nil, by simpa using here⟩
      · grind
  obtain ⟨more, known, ends⟩ := components_eq clean bound
  exact ⟨first, tail, more, rfl, clean, bound, known, ends⟩

variable {more : List PathBytes} {first : PathBytes}

section
variable (known : components path = first :: more)
include known

/-- A path starts with the names that a separator or the end follows. -/
theorem first_eq_iff {name : PathBytes} (named : slash ∉ name) :
    first = name ↔ ∃ tail, path = name ++ tail ∧ tail.head?.all (· == slash) = true := by
  obtain ⟨first', tail, _, rfl, clean, bound, known', _⟩ := exists_first path
  obtain ⟨rfl, _⟩ := cons.inj (known.symm.trans known')
  constructor
  · rintro rfl
    exact ⟨tail, rfl, bound⟩
  · rintro ⟨tail', same, bound'⟩
    obtain ⟨_, other, _⟩ := components_eq named bound'
    rw [← same] at other
    exact (cons.inj (known.symm.trans other)).1

theorem dotFollows_iff : dotFollows path = true ↔ first = [dot] := by
  rw [first_eq_iff known (by decide)]
  match path with
  | [] => simp [dotFollows]
  | a :: rest => simp [dotFollows]

theorem dotsFollow_iff : dotsFollow path = true ↔ first = [dot, dot] := by
  rw [first_eq_iff known (by decide)]
  match path with
  | [] | [_] => simp [dotsFollow]
  | a :: b :: rest => simp [dotsFollow, and_assoc]

theorem head?_slash_iff : path.head? = some slash ↔ first = [] ∧ more ≠ [] := by
  obtain ⟨first', tail, more', rfl, clean, bound, known', ends⟩ := exists_first path
  obtain ⟨rfl, rfl⟩ := cons.inj (known.symm.trans known')
  cases first with
  | nil =>
    rw [nil_append, ne_eq, ends]
    cases tail with
    | nil => simp
    | cons byte rest =>
      grind
  | cons byte rest =>
    grind

end

/-! ### The depth of a link -/

/-- The loop of `allowed_link_source_depth` over the components behind the first. -/
def depthOf : Int → List PathBytes → Option Int
  | depth, [] => some depth
  | depth, c :: more =>
    if c = [] ∧ more ≠ [] then none
    else depthOf (if c = [dot, dot] then depth - 1 else if c ≠ [dot] then depth + 1 else depth) more

theorem depthFrom_eq (depth : Int) (path : PathBytes) : depthFrom depth path = depthOf depth (components path).tail := by
  induction path generalizing depth with
  | nil => rfl
  | cons byte rest ih =>
    by_cases here : byte = slash
    · subst here
      obtain ⟨first, more, known⟩ := exists_components rest
      rw [depthFrom, if_neg (not_not_intro rfl), components_slash, tail_cons, known, depthOf]
      refine if_congr (head?_slash_iff known) rfl ?_
      rw [ih, known, tail_cons]
      refine congrArg (depthOf · more) ?_
      refine if_congr (dotsFollow_iff known) rfl ?_
      by_cases single : first = [dot]
      · rw [(dotFollows_iff known).mpr single, if_neg (by simp), if_neg (not_not_intro single)]
      · rw [Bool.eq_false_of_not_eq_true fun found => single ((dotFollows_iff known).mp found), if_pos (by rfl), if_pos single]
    · rw [depthFrom, if_pos here, ih, components_cons here, tail_modifyHead]

theorem depthOf_none {depth : Int} (doubled : [] ∈ more.dropLast) : depthOf depth more = none := by
  induction more generalizing depth with
  | nil => cases doubled
  | cons c rest ih =>
    cases rest with
    | nil => cases doubled
    | cons d rest =>
      rw [depthOf]
      by_cases empty : c = []
      · exact if_pos ⟨empty, cons_ne_nil d rest⟩
      · grind

/-- Whether a component other than `..` leads further down. -/
def descends (component : PathBytes) : Bool := component ≠ [dot]

theorem descends_iff {component : PathBytes} : descends component = true ↔ component ≠ [dot] := decide_eq_true_iff

theorem depthOf_some {depth : Int} (single : [] ∉ more.dropLast) (level : [dot, dot] ∉ more) :
    depthOf depth more = some (depth + more.countP descends) := by
  induction more generalizing depth with
  | nil => exact congrArg some (add_zero depth).symm
  | cons c rest ih =>
    rw [mem_cons, not_or] at level
    have rest_single : [] ∉ rest.dropLast := fun there => by
      cases rest with
      | nil => cases there
      | cons d rest =>
        grind
    have here : ¬(c = [] ∧ rest ≠ []) := by
      rintro ⟨rfl, more⟩
      obtain ⟨d, rest, rfl⟩ := exists_cons_of_ne_nil more
      exact single mem_cons_self
    rw [depthOf, if_neg here, if_neg (Ne.symm level.1), ih rest_single level.2]
    by_cases stays : c = [dot]
    · rw [if_neg (not_not_intro stays), countP_cons_of_neg fun down => descends_iff.mp down stays]
    · rw [if_pos stays, countP_cons_of_pos (descends_iff.mpr stays)]
      exact congrArg some (by omega)

end Components

/-- How a component moves. -/
def moveOf (component : PathBytes) : Move PathBytes :=
  if component = [] ∨ component = [dot] then .stay
  else if component = [dot, dot] then .up
  else .down component

/-- The components of the directory that holds the link. -/
def linkDirectory (memberPath : PathBytes) : List PathBytes := ((components memberPath).filter (· ≠ [])).dropLast

/-- Following the target from there never goes above the root. -/
def StaysInside (memberPath target : PathBytes) : Prop :=
  (Move.walk [] ((linkDirectory memberPath ++ components target).map moveOf)).isSome

/-- How deep the link lies below the root. -/
def linkDepth (memberPath : PathBytes) : Nat := (linkDirectory memberPath).countP descends

/-- One separator closes the path, none is doubled, and the last name is not a dot. -/
def looseEnd (memberPath : PathBytes) : Bool :=
  (components memberPath).getLast? == some [] && !(components memberPath).dropLast.contains [] &&
    (components memberPath).dropLast.getLast? != some [dot]

theorem looseEnd_eq {path last : PathBytes} {front : List PathBytes} (known : components path = front ++ [last]) :
    looseEnd path = (last == [] && !front.contains [] && front.getLast? != some [dot]) := by
  rw [looseEnd, known, getLast?_concat, dropLast_concat]
  rfl

/-- What the sanitizers guarantee of a path. -/
structure Sanitized (path : PathBytes) : Prop where
  first : ∀ first more, components path = first :: more → more ≠ [] → ∃ byte ∈ first, byte ≠ dot
  level : [dot, dot] ∉ (components path).tail

namespace Sanitized
variable {path : PathBytes} (clean : Sanitized path)
include clean

theorem first_name {first : PathBytes} {more : List PathBytes} (known : components path = first :: more) (some_ : more ≠ []) :
    first ≠ [] ∧ first ≠ [dot] ∧ first ≠ [dot, dot] := by
  obtain ⟨byte, there, other⟩ := clean.first first more known some_
  refine ⟨ne_nil_of_mem there, ?_, ?_⟩ <;> rintro rfl <;> simp_all

theorem linkDirectory_level : ∀ c ∈ linkDirectory path, c ≠ [] ∧ c ≠ [dot, dot] := fun c there => by
  have inFilter := (dropLast_sublist _).subset there
  obtain ⟨inPath, nonempty⟩ := mem_filter.mp inFilter
  refine ⟨by simpa using nonempty, ?_⟩
  rintro rfl
  obtain ⟨first, more, known⟩ := exists_components path
  have level := clean.level
  rw [known, tail_cons] at level
  rw [known] at inPath
  rcases mem_cons.mp inPath with rfl | later
  · by_cases some_ : more = []
    · rw [linkDirectory, known, some_] at there
      simp at there
    · exact (clean.first_name known some_).2.2 rfl
  · exact level later

theorem walk_linkDirectory :
    ∃ dir, Move.walk [] ((linkDirectory path).map moveOf) = some dir ∧ dir.length = linkDepth path := by
  have level := clean.linkDirectory_level
  have flat : ∀ move ∈ (linkDirectory path).map moveOf, move.isUp = false := fun move there => by
    obtain ⟨c, inside, rfl⟩ := mem_map.mp there
    unfold moveOf
    split
    · rfl
    · rw [if_neg (level c inside).2]
      rfl
  obtain ⟨dir, walked, length⟩ := Move.walk_down [] flat
  refine ⟨dir, walked, ?_⟩
  rw [length, length_nil, Nat.zero_add, countP_map, linkDepth]
  refine countP_congr fun c inside => ?_
  obtain ⟨some_, notUp⟩ := level c inside
  rw [Function.comp_apply, moveOf]
  by_cases stays : c = [dot] <;> simp [stays, some_, notUp, Move.isDown, descends]

theorem staysInside_of_le {target : PathBytes} (few : targetParentTraversalCount target ≤ linkDepth path) : StaysInside path target := by
  obtain ⟨dir, walked, length⟩ := clean.walk_linkDirectory
  rw [StaysInside, map_append, Move.walk_append, walked, Option.bind_some]
  refine Move.walk_isSome ?_
  rw [length, countP_map]
  refine le_trans (countP_mono_left fun c _ up => ?_) few
  rw [Function.comp_apply, moveOf] at up
  split at up
  · cases up
  · split at up
    · simpa using ‹c = [dot, dot]›
    · cases up

theorem not_staysInside {target : PathBytes} {count : Nat} (known : components target = replicate count [dot, dot])
    (many : linkDepth path < count) : ¬StaysInside path target := by
  obtain ⟨dir, walked, length⟩ := clean.walk_linkDirectory
  have ups : (replicate count [dot, dot]).map moveOf = replicate count Move.up := map_replicate
  rw [StaysInside, map_append, Move.walk_append, walked, Option.bind_some, known, ups,
    Move.walk_replicate_up (length ▸ many)]
  exact Bool.false_ne_true

/-- The allowance is the depth, but for a path with a loose end. -/
theorem allowed_le (some_ : path ≠ []) :
    if looseEnd path then allowedLinkSourceDepth path = linkDepth path + 1
    else allowedLinkSourceDepth path ≤ linkDepth path := by
  obtain ⟨first, more, known⟩ := exists_components path
  have level := clean.level
  rw [known, tail_cons] at level
  rcases eq_nil_or_concat' more with rfl | ⟨middle, last, rfl⟩
  · have whole : first ≠ [] := by
      rintro rfl
      obtain ⟨_, tail, _, same, _, _, known', ends⟩ := exists_first path
      obtain ⟨rfl, rfl⟩ := cons.inj (known.symm.trans known')
      exact some_ (same.trans (ends.mp rfl))
    have allowed : allowedLinkSourceDepth path = 0 := by
      rw [allowedLinkSourceDepth, depthFrom_eq, known]
      rfl
    rw [if_neg (by simp [looseEnd, known, whole]), allowed]
    exact Nat.zero_le _
  obtain ⟨named, notDot, _⟩ := clean.first_name known (by simp)
  have loose := looseEnd_eq (show components path = (first :: middle) ++ [last] from known)
  by_cases doubled : [] ∈ middle
  · have allowed : allowedLinkSourceDepth path = 0 := by
      rw [allowedLinkSourceDepth, depthFrom_eq, known, tail_cons,
        depthOf_none (by rw [dropLast_concat]; exact doubled)]
    rw [loose, if_neg (by simp [doubled]), allowed]
    exact Nat.zero_le _
  have inside : [] ∉ first :: middle := fun there => (mem_cons.mp there).elim (named ·.symm) doubled
  have allowed : allowedLinkSourceDepth path = (middle ++ [last]).countP descends := by
    rw [allowedLinkSourceDepth, depthFrom_eq, known, tail_cons,
      depthOf_some (by rw [dropLast_concat]; exact doubled) level]
    dsimp only
    omega
  have kept : (first :: middle).filter (· ≠ []) = first :: middle := filter_eq_self.mpr fun c there => by
    simpa using fun empty : c = [] => inside (empty ▸ there)
  have head : (first :: middle).countP descends = middle.countP descends + 1 :=
    countP_cons_of_pos (descends_iff.mpr notDot)
  have link : linkDirectory path = ((first :: middle) ++ [last].filter (· ≠ [])).dropLast := by
    rw [linkDirectory, known, ← cons_append, filter_append, kept]
  rw [countP_append] at allowed
  by_cases closes : last = []
  · subst closes
    obtain ⟨front, z, frame⟩ : ∃ front z, first :: middle = front ++ [z] :=
      (eq_nil_or_concat' (first :: middle)).resolve_left (cons_ne_nil _ _)
    have link : linkDirectory path = front := by
      grind
    have total := frame ▸ head
    have closing : [[]].countP descends = 1 := rfl
    rw [countP_append] at total
    rw [allowed, closing, loose, linkDepth, link]
    by_cases stays : z = [dot]
    · have none_ : [z].countP descends = 0 := by rw [stays]; rfl
      rw [if_neg (by simp [frame, stays])]
      omega
    · simp_all [descends, countP_cons_of_pos]
  · have link : linkDirectory path = first :: middle := by
      grind
    have : [last].countP descends ≤ 1 := countP_le_length
    rw [loose, if_neg (by simp [closes]), allowed, linkDepth, link, head]
    omega

end Sanitized

/-! ### The sanitizers -/

theorem afterTraversal_suffix {path tail : PathBytes} (found : afterTraversal path = some tail) :
    ∃ byte rest, path = byte :: rest ∧ tail <:+ rest := by
  unfold afterTraversal at found
  split at found
  · grind
  · cases found

/-- The first loop leaves no traversal behind. -/
theorem afterTraversal_cutTraversals (dest path : PathBytes)
    (later : ∀ u, u <:+ dest → (afterTraversal u).isSome → u <:+ path) :
    ∀ u, u <:+ cutTraversals dest path → afterTraversal u = none := by
  induction path generalizing dest with
  | nil =>
    intro u inside
    by_contra found
    have := later u inside (Option.isSome_iff_ne_none.mpr found)
    obtain rfl := suffix_nil.mp this
    exact found rfl
  | cons byte rest ih =>
    refine ih _ fun u inside found => ?_
    cases here : afterTraversal (byte :: rest) with
    | none =>
      rw [here] at inside
      rcases suffix_cons_iff.mp (later u inside found) with rfl | after
      · rw [here] at found
        cases found
      · exact after
    | some tail =>
      rw [here] at inside
      obtain ⟨_, _, same, short⟩ := afterTraversal_suffix here
      obtain ⟨rfl, rfl⟩ := cons.inj same
      exact inside.trans short

variable {path : PathBytes} {drive memberSeparator targetSeparator root : Bool} (strip : Bool) (count : Nat)

theorem level_of_afterTraversal (none_ : ∀ u, u <:+ path → afterTraversal u = none) :
    [dot, dot] ∉ (components path).tail := by
  induction path with
  | nil => exact not_mem_nil
  | cons byte rest ih =>
    have later := ih fun u inside => none_ u (inside.trans (suffix_cons byte rest))
    by_cases here : byte = slash
    · subst here
      obtain ⟨first, tail, more, rfl, clean, bound, known, _⟩ := exists_first rest
      rw [known] at later
      rw [components_slash, tail_cons, known]
      rintro (_ | ⟨_, there⟩)
      · have found := none_ _ suffix_rfl
        cases tail with
        | nil => cases found
        | cons d tail =>
          obtain rfl : d = slash := by simpa using bound
          cases found
      · exact later there
    · rw [components_cons here, tail_modifyHead]
      exact later

theorem stripDrive_suffix (path : PathBytes) : stripDrive strip path <:+ path := by
  unfold stripDrive
  split
  · exact drop_suffix 2 path
  · exact suffix_rfl

theorem afterSeparators_suffix {count : Nat} {tail : PathBytes} (found : afterSeparators count path = some tail) :
    tail <:+ path := by
  induction path generalizing count with
  | nil => cases found
  | cons byte rest ih =>
    rw [afterSeparators] at found
    split at found
    · grind
    · exact (ih found).trans (suffix_cons byte rest)

theorem stripUnc_suffix (path : PathBytes) : stripUnc path <:+ path := by
  unfold stripUnc
  split
  · split
    · cases found : afterSeparators 0 _ with
      | none => exact suffix_rfl
      | some tail => exact (afterSeparators_suffix found).trans (suffix_append [_, _] _)
    · exact suffix_rfl
  · exact suffix_rfl

theorem skipLeading_suffix {whole : PathBytes} (start : PathBytes) (first : start <:+ whole) (second : path <:+ whole) :
    skipLeading start path <:+ whole := by
  induction path generalizing start with
  | nil => exact first
  | cons byte rest ih =>
    have later := (suffix_cons byte rest).trans second
    rw [skipLeading]
    split
    · exact ih rest later later
    · grind

/-- Leading dots before a separator are skipped with it. -/
theorem skipLeading_short (start : PathBytes) {first : PathBytes} {more : List PathBytes} (known : components path = first :: more)
    (some_ : more ≠ []) (dots : ∀ byte ∈ first, byte = dot) : (skipLeading start path).length < path.length := by
  induction path generalizing start first more with
  | nil =>
    cases known
    exact absurd rfl some_
  | cons byte rest ih =>
    rw [skipLeading]
    by_cases here : byte = slash
    · rw [if_pos here]
      exact Nat.lt_succ_of_le (skipLeading_suffix rest suffix_rfl suffix_rfl).length_le
    · rw [if_neg here]
      rw [components_cons here] at known
      obtain ⟨first', more', known'⟩ := exists_components rest
      rw [known', modifyHead_cons] at known
      obtain ⟨rfl, rfl⟩ := cons.inj known
      rw [if_neg (not_not_intro (dots byte mem_cons_self))]
      exact Nat.lt_succ_of_lt (ih start known' some_ fun b there => dots b (mem_cons_of_mem byte there))

theorem stripOnce_suffix (path : PathBytes) : stripOnce strip path <:+ path :=
  have start := (stripUnc_suffix _).trans (stripDrive_suffix strip path)
  skipLeading_suffix _ start start

theorem stripStart_suffix (fuel : Nat) (path : PathBytes) : stripStart strip fuel path <:+ path := by
  induction fuel generalizing path with
  | zero => exact suffix_rfl
  | succ fuel ih =>
    rw [stripStart]
    split
    · exact suffix_rfl
    · dsimp only
      split
      · exact suffix_rfl
      · exact (ih _).trans (stripOnce_suffix strip path)

/-- The second loop ends where another turn would not move on. -/
theorem stripStart_fixed {fuel : Nat} (enough : path.length ≤ fuel) :
    (stripOnce strip (stripStart strip fuel path)).length = (stripStart strip fuel path).length := by
  induction fuel generalizing path with
  | zero =>
    obtain rfl := length_eq_zero_iff.mp (Nat.le_zero.mp enough)
    exact Nat.le_zero.mp (stripOnce_suffix strip []).length_le
  | succ fuel ih =>
    rw [stripStart]
    split_ifs with empty
    · subst empty
      exact Nat.le_zero.mp (stripOnce_suffix strip []).length_le
    · dsimp only
      split
      · assumption
      · have := (stripOnce_suffix strip path).length_le
        exact ih (by omega)

theorem cutTraversals_suffix {dest whole : PathBytes} (first : dest <:+ whole) (second : path <:+ whole) :
    cutTraversals dest path <:+ whole := by
  induction path generalizing dest with
  | nil => exact first
  | cons byte rest ih =>
    have later := (suffix_cons byte rest).trans second
    refine ih ?_ later
    cases here : afterTraversal (byte :: rest) with
    | none => exact first
    | some tail =>
      obtain ⟨_, _, same, short⟩ := afterTraversal_suffix here
      obtain ⟨rfl, rfl⟩ := cons.inj same
      exact short.trans later

theorem convertPathStart_suffix (path : PathBytes) (strip : Bool) : convertPathStart path strip <:+ path :=
  (stripStart_suffix strip _ _).trans (cutTraversals_suffix suffix_rfl suffix_rfl)

theorem convertPathStart_fixed (path : PathBytes) (strip : Bool) :
    stripOnce strip (convertPathStart path strip) = convertPathStart path strip :=
  (stripOnce_suffix strip _).eq_of_length
    (stripStart_fixed strip (cutTraversals_suffix suffix_rfl suffix_rfl).length_le)

/-- Where a turn does not move on, neither does any of its steps. -/
theorem stripOnce_eq_self {strip : Bool} (fixed : stripOnce strip path = path) :
    stripDrive strip path = path ∧ skipLeading path path = path := by
  have drive := stripDrive_suffix strip path
  have unc := stripUnc_suffix (stripDrive strip path)
  have lead := skipLeading_suffix (stripUnc (stripDrive strip path)) suffix_rfl suffix_rfl
  have total : (skipLeading _ _).length = path.length :=
    congrArg length fixed
  have first := drive.length_le
  have second := unc.length_le
  have third := lead.length_le
  have sameDrive : stripDrive strip path = path := drive.eq_of_length (by omega)
  have sameUnc : stripUnc _ = path := (unc.trans drive).eq_of_length (by omega)
  refine ⟨sameDrive, ?_⟩
  rw [stripOnce, sameUnc] at fixed
  exact fixed

/-- What `convert_path_start` leaves is sanitized and relative. -/
theorem sanitized_convertPathStart (path : PathBytes) (strip : Bool) :
    Sanitized (convertPathStart path strip) ∧ (convertPathStart path strip).head? ≠ some slash ∧
      (strip = true → hasDriveLetter (convertPathStart path strip) = false) := by
  have cut := afterTraversal_cutTraversals path path fun _ inside _ => inside
  have short : convertPathStart path strip <:+ cutTraversals path path := stripStart_suffix strip _ _
  obtain ⟨drive, lead⟩ := stripOnce_eq_self (convertPathStart_fixed path strip)
  generalize convertPathStart path strip = result at short drive lead
  have clean : Sanitized result := by
    refine ⟨fun first more known some_ => ?_, level_of_afterTraversal fun u inside => cut u (inside.trans short)⟩
    by_contra dots
    push Not at dots
    have moved := skipLeading_short result known some_ dots
    rw [lead] at moved
    exact lt_irrefl _ moved
  refine ⟨clean, fun rooted => ?_, ?_⟩
  · obtain ⟨first, more, known⟩ := exists_components result
    obtain ⟨rfl, some_⟩ := (head?_slash_iff known).mp rooted
    exact (clean.first_name known some_).1 rfl
  · rintro rfl
    match result, drive with
    | [], _ => rfl
    | [_], _ => rfl
    | a :: b :: rest, drive =>
      by_cases here : b = colon
      · subst here
        have length := congrArg length drive
        have shorter : (stripDrive true (a :: colon :: rest)).length = rest.length := rfl
        rw [shorter, length_cons, length_cons] at length
        omega
      · simp [hasDriveLetter, here]

theorem sanitizePath_sanitized (raw : PathBytes) : Sanitized (sanitizePath raw) := (sanitized_convertPathStart _ _).1

theorem backslash_not_mem_replace (path : PathBytes) : backslash ∉ path.replace backslash slash := fun there => by
  obtain ⟨byte, _, same⟩ := mem_map.mp there
  split at same
  · exact absurd same (by decide)
  · rename_i other
    exact other same

theorem replace_eq_self {old new : UInt8} (absent : old ∉ path) : path.replace old new = path := by
  refine (map_congr_left fun byte there => ?_).trans (map_id path)
  have other : byte ≠ old := fun same => absent (same ▸ there)
  exact if_neg other

theorem sanitizePath_relative (raw : PathBytes) :
    normalizeBackslashForPathCheck (sanitizePath raw) true = sanitizePath raw ∧
      isFullRootPath (sanitizePath raw) true = false := by
  obtain ⟨_, relative, drive⟩ := sanitized_convertPathStart _ true
  constructor
  · refine replace_eq_self fun there => backslash_not_mem_replace (untilNull raw) ?_
    exact (convertPathStart_suffix _ _).subset there
  · rw [isFullRootPath, show hasDriveLetter (sanitizePath raw) = false from drive rfl, Bool.and_false, Bool.or_false]
    exact beq_eq_false_iff_ne.mpr relative

/-- On Unix the sanitized path of a member is relative. -/
theorem sanitizeMemberPath_sanitized (nfc : PathBytes → PathBytes) (format : ArchiveFormat) (hostOs : HostOs) (raw : PathBytes) :
    Sanitized (sanitizeMemberPathForTarget nfc format hostOs raw false) ∧
      isFullRootPath (sanitizeMemberPathForTarget nfc format hostOs raw false) false = false := by
  obtain ⟨converted, same⟩ : ∃ converted,
      sanitizeMemberPathForTarget nfc format hostOs raw false = convertPathStart converted false := ⟨_, rfl⟩
  obtain ⟨clean, relative, _⟩ := sanitized_convertPathStart converted false
  rw [same]
  refine ⟨clean, ?_⟩
  rw [isFullRootPath, Bool.false_and, Bool.or_false]
  exact beq_eq_false_iff_ne.mpr relative

/-! ### Targets -/

/-- The target that climbs by one more than `count` directories. -/
def climb : Nat → PathBytes
  | 0 => [dot, dot]
  | count + 1 => dot :: dot :: slash :: climb count

theorem components_climb : components (climb count) = replicate (count + 1) [dot, dot] := by
  induction count with
  | zero => decide
  | succ count ih =>
    rw [climb, components_cons (by decide), components_cons (by decide), components_slash, ih]
    rfl

theorem climb_bytes : ∀ byte ∈ climb count, byte = dot ∨ byte = slash := by
  induction count with
  | zero => exact fun byte there => .inl (by simpa [climb] using there)
  | succ count ih =>
    intro byte there
    simp only [climb, mem_cons] at there
    rcases there with rfl | rfl | rfl | later
    · exact .inl rfl
    · exact .inl rfl
    · exact .inr rfl
    · exact ih byte later

theorem climb_count : targetParentTraversalCount (climb count) = count + 1 := by
  rw [targetParentTraversalCount, components_climb, countP_replicate, if_pos (by decide)]

/-- An accepted target climbs at most as far as the member path allows, and that path is relative. -/
theorem count_le_of_isSafeLinkTargetInner {memberPath target : PathBytes}
    (accepted : isSafeLinkTargetInner memberPath target drive memberSeparator targetSeparator root = true) :
    isFullRootPath (normalizeBackslashForPathCheck memberPath memberSeparator) root = false ∧
      targetParentTraversalCount (normalizeBackslashForPathCheck target targetSeparator) ≤
        allowedLinkSourceDepth (normalizeBackslashForPathCheck memberPath memberSeparator) := by
  unfold isSafeLinkTargetInner at accepted
  dsimp only at accepted
  split at accepted
  · cases accepted
  rename_i relative
  refine ⟨Bool.eq_false_of_not_eq_true relative, ?_⟩
  split_ifs at accepted
  · exact of_decide_eq_true accepted

theorem climb_normalize (separator : Bool) :
    normalizeBackslashForPathCheck (climb count) separator = climb count := by
  unfold normalizeBackslashForPathCheck
  split
  · refine replace_eq_self fun there => ?_
    rcases climb_bytes count _ there with same | same <;> exact absurd same (by decide)
  · rfl

theorem climb_accepted {memberPath : PathBytes} {count : Nat}
    (relative : isFullRootPath (normalizeBackslashForPathCheck memberPath memberSeparator) root = false)
    (allowed : count < allowedLinkSourceDepth (normalizeBackslashForPathCheck memberPath memberSeparator)) :
    isSafeLinkTargetInner memberPath (climb count) drive memberSeparator targetSeparator root = true := by
  have bytes := climb_bytes count
  have null : (climb count).contains 0 = false := by
    simp only [contains_eq_mem, decide_eq_false_iff_not]
    intro there
    rcases bytes _ there with same | same <;> exact absurd same (by decide)
  have start : (climb count).head? = some dot := by cases count <;> rfl
  have letter : hasDriveLetter (climb count) = false := by cases count <;> rfl
  unfold isSafeLinkTargetInner
  dsimp only
  rw [relative, if_neg Bool.false_ne_true, climb_normalize, start, if_neg (by decide), letter, Bool.and_false,
    if_neg Bool.false_ne_true, null, if_neg Bool.false_ne_true, climb_count]
  exact decide_eq_true allowed

/-- An accepted target stays inside the root for every path without a loose end, and only for those: the check of a
member with its raw name refuses some targets of the others by what the raw name allows. -/
theorem linkTarget_inside_iff (raw : PathBytes) (nfc : PathBytes → PathBytes) (format : ArchiveFormat) (hostOs : HostOs) :
    (sanitizePath raw ≠ [] →
      ((∀ target, isSafeLinkTarget (sanitizePath raw) target = true →
        StaysInside (sanitizePath raw) (normalizeBackslashForPathCheck target true)) ↔ looseEnd (sanitizePath raw) = false)) ∧
    (sanitizeMemberPathForTarget nfc format hostOs raw false ≠ [] →
      ((∀ target, isSafeSymlinkTargetForArchiveMemberOnHost format
          (sanitizeMemberPathForTarget nfc format hostOs raw false) raw target false = true →
        StaysInside (sanitizeMemberPathForTarget nfc format hostOs raw false) target) ↔
      ¬(looseEnd (sanitizeMemberPathForTarget nfc format hostOs raw false) = true ∧
        isFullRootPath (normalizeBackslashForPathCheck raw (format ≠ .rar5)) false = false ∧
        linkDepth (sanitizeMemberPathForTarget nfc format hostOs raw false) <
          allowedLinkSourceDepth (normalizeBackslashForPathCheck raw (format ≠ .rar5))))) := by
  refine ⟨fun some_ => ?_, fun some_ => ?_⟩
  · have clean := sanitizePath_sanitized raw
    obtain ⟨plain, relative⟩ := sanitizePath_relative raw
    have allowed := clean.allowed_le some_
    generalize sanitizePath raw = path at clean plain relative allowed
    constructor
    · intro safe
      by_contra loose
      have loose := Bool.eq_true_of_not_eq_false loose
      rw [if_pos loose] at allowed
      have accepted : isSafeLinkTarget path (climb (linkDepth path)) = true :=
        climb_accepted (by rw [plain]; exact relative) (by rw [plain]; omega)
      have climbs : normalizeBackslashForPathCheck (climb (linkDepth path)) true = climb (linkDepth path) :=
        climb_normalize _ true
      have inside := safe _ accepted
      rw [climbs] at inside
      exact clean.not_staysInside (components_climb _) (Nat.lt_succ_self _) inside
    · intro tight target accepted
      rw [tight, if_neg Bool.false_ne_true] at allowed
      have few := (count_le_of_isSafeLinkTargetInner accepted).2
      rw [plain] at few
      exact clean.staysInside_of_le (few.trans allowed)
  · obtain ⟨clean, relative⟩ := sanitizeMemberPath_sanitized nfc format hostOs raw
    have allowed := clean.allowed_le some_
    generalize sanitizeMemberPathForTarget nfc format hostOs raw false = path at clean relative allowed
    constructor
    · rintro safe ⟨loose, relativeRaw, deeper⟩
      rw [if_pos loose] at allowed
      have first : isSafeLinkTargetInner path _ true false false false = true :=
        climb_accepted relative (show linkDepth path < allowedLinkSourceDepth path by omega)
      have second : isSafeLinkTargetInner raw _ true _ false false = true :=
        climb_accepted relativeRaw deeper
      have accepted := Bool.and_eq_true_iff.mpr ⟨first, second⟩
      exact clean.not_staysInside (components_climb _) (Nat.lt_succ_self _) (safe _ accepted)
    · intro tight target accepted
      obtain ⟨first, second⟩ := Bool.and_eq_true_iff.mp accepted
      have few : targetParentTraversalCount target ≤ allowedLinkSourceDepth path :=
        (count_le_of_isSafeLinkTargetInner first).2
      obtain ⟨relativeRaw, fewRaw⟩ := count_le_of_isSafeLinkTargetInner second
      refine clean.staysInside_of_le ?_
      by_cases loose : looseEnd path = true
      · have bound : ¬linkDepth path < allowedLinkSourceDepth _ :=
          fun deeper => tight ⟨loose, relativeRaw, deeper⟩
        exact fewRaw.trans (Nat.le_of_not_lt bound)
      · grind

/-- The path `a/b` has no loose end. -/
theorem linkTarget_inside_plain :
    sanitizePath [97, slash, 98] ≠ [] ∧ ∀ target, isSafeLinkTarget (sanitizePath [97, slash, 98]) target = true →
      StaysInside (sanitizePath [97, slash, 98]) (normalizeBackslashForPathCheck target true) :=
  ⟨by decide, ((linkTarget_inside_iff [97, slash, 98] id .rar5 .unix).1 (by decide)).mpr (by decide)⟩

/-- The member `a/` may link to `..`, which leaves the root. -/
theorem linkTarget_leaves_root :
    sanitizePath [97, slash] = [97, slash] ∧ isSafeLinkTarget [97, slash] [dot, dot] = true ∧
      sanitizeMemberPathForTarget id .rar5 .unix [97, slash] false = [97, slash] ∧
      isSafeSymlinkTargetForArchiveMemberOnHost .rar5 [97, slash] [97, slash] [dot, dot] false = true ∧
      ¬StaysInside [97, slash] [dot, dot] := by
  unfold StaysInside
  decide

end Rarpar.Unrar

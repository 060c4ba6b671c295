import Mathlib.Data.Bool.AllAny
import Mathlib.Data.List.Basic

namespace Rarpar.Par2
open List Option

/-! The translation of a PAR2 name to a path below the directory of the set. -/

/-- The characters of a name or a path. -/
abbrev Name := List Char

structure InvalidFileDescPacket where
  reason : String
deriving DecidableEq

namespace Name

def backslash : Char := Char.ofNat 92

def hexDigits : Name := "0123456789ABCDEF".toList

def encodeByte (byte : UInt8) : Name :=
  ['%', hexDigits.getD (byte.toNat / 16) '0', hexDigits.getD (byte.toNat % 16) '0']

def encodeChar (ch : Char) : Name := (String.utf8EncodeChar ch).flatMap encodeByte

/-- The characters of the category Cc. -/
def isControl (ch : Char) : Bool := ch.toNat < 0x20 ∨ 0x7F ≤ ch.toNat ∧ ch.toNat ≤ 0x9F

/-- On Windows the quotation mark, the null character and `*:<>?|` are illegal too. -/
def isIllegalLocalChar (windows : Bool) (ch : Char) : Bool :=
  isControl ch || (windows && decide (ch.toNat ∈ [34, 42, 58, 60, 62, 63, 124, 0]))

def encodeComponent (windows : Bool) (component : Name) : Name :=
  component.flatMap fun ch => if isIllegalLocalChar windows ch then encodeChar ch else [ch]

/-- What a round of the loop pushes. -/
def pushed (windows : Bool) (normalized : Name) (entry : Name × Nat) : Option Name :=
  let (part, index) := entry
  if part = [] then if index = 0 ∧ normalized.head? = some '/' then some "%2F".toList else none
  else
    let encoded := if part = ['.', '.'] then "%2E%2E".toList else encodeComponent windows part
    if encoded ≠ [] then some encoded else none

/-- Whether a round sees a component with a name. -/
def sawNameComponent (normalized : Name) (entry : Name × Nat) : Bool :=
  entry.1 ≠ [] ∨ entry.2 = 0 ∧ normalized.head? = some '/'

def translatePar2NameToRelative (windows : Bool) (par2Name : Name) : Except InvalidFileDescPacket Name :=
  let normalized := par2Name.map fun ch => if ch = backslash then '/' else ch
  let entries := (normalized.splitOn '/').zipIdx
  if entries.any (sawNameComponent normalized) then .ok (['/'].intercalate (entries.filterMap (pushed windows normalized)))
  else .error ⟨"filename is empty after translation"⟩

inductive Component where
  | pathPrefix
  | rootDir
  | curDir
  | parentDir
  | normal (name : Name)
deriving DecidableEq

def isSeparator (windows : Bool) (ch : Char) : Bool := ch == '/' || (windows && ch == backslash)

/-- A drive, or the two separators in front of a share or a device. -/
def startsWithPrefix (windows : Bool) (path : Name) : Bool :=
  windows && match path with
    | a :: b :: _ => (a.isAlpha && b == ':') || (isSeparator windows a && isSeparator windows b)
    | _ => false

/-- `Path::components`: empty components are skipped, and `.` counts only as the first one. Nothing reads
what follows a prefix. -/
def components (windows : Bool) (path : Name) : List Component :=
  if startsWithPrefix windows path then [.pathPrefix]
  else
    (if path.head?.any (isSeparator windows) then [.rootDir] else []) ++
      ((path.map fun ch => if isSeparator windows ch then '/' else ch).splitOn '/').zipIdx.filterMap fun entry =>
        if entry.1 = [] then none
        else if entry.1 = ['.'] then if entry.2 = 0 then some .curDir else none
        else if entry.1 = ['.', '.'] then some .parentDir
        else some (.normal entry.1)

/-- The base directory is given by its components. -/
def translatePar2NameToLocalPath (windows : Bool) (par2Name : Name) (baseDir : List Component) :
    Except InvalidFileDescPacket (List Component) := do
  let relative ← translatePar2NameToRelative windows par2Name
  let parts := components windows relative
  if .parentDir ∈ parts ∨ .rootDir ∈ parts ∨ .pathPrefix ∈ parts then
    .error ⟨"translated filename is not relative: " ++ String.ofList relative⟩
  else .ok (baseDir ++ parts)

/-- What the translation may leave in a part. -/
abbrev Legal (windows : Bool) (ch : Char) : Prop := ch ≠ '/' ∧ ch ≠ backslash ∧ isIllegalLocalChar windows ch = false

structure Clean (windows : Bool) (part : Name) : Prop where
  nonempty : part ≠ []
  level : part ≠ ['.', '.']
  legal : ∀ ch ∈ part, Legal windows ch

variable {windows : Bool} {part : Name}

theorem legal_of_encodeChar (windows : Bool) {ch c : Char} (member : c ∈ encodeChar ch) : Legal windows c ∧ c ≠ '.' := by
  have plain : ∀ c ∈ '%' :: hexDigits, Legal windows c ∧ c ≠ '.' := by cases windows <;> exact all_iff_forall_prop.mp (by decide)
  have digit : ∀ n < 16, hexDigits.getD n '0' ∈ hexDigits := by decide
  refine plain c ?_
  obtain ⟨byte, _, member⟩ := mem_flatMap.mp member
  have small := byte.toNat_lt
  simp only [encodeByte, mem_cons, not_mem_nil, or_false] at member ⊢
  rcases member with rfl | rfl | rfl
  · exact .inl rfl
  · exact .inr (digit _ (by omega))
  · exact .inr (digit _ (Nat.mod_lt _ (by decide)))

theorem encodeChar_ne_nil (ch : Char) : encodeChar ch ≠ [] := by
  unfold encodeChar String.utf8EncodeChar
  dsimp only
  split_ifs <;> simp [encodeByte]

theorem encodeComponent_of_legal (legal : ∀ ch ∈ part, Legal windows ch) : encodeComponent windows part = part := by
  induction part with
  | nil => rfl
  | cons ch rest ih =>
    obtain ⟨first, others⟩ := forall_mem_cons.mp legal
    rw [encodeComponent, flatMap_cons, first.2.2]
    exact congrArg (ch :: ·) (ih others)

/-- An encoded part is clean when the part has no separator. -/
theorem clean_encodeComponent (nonempty : part ≠ []) (level : part ≠ ['.', '.'])
    (parted : ∀ ch ∈ part, ch ≠ '/' ∧ ch ≠ backslash) : Clean windows (encodeComponent windows part) := by
  refine ⟨?_, fun up => ?_, fun c member => ?_⟩
  · rw [encodeComponent, ne_eq, flatMap_eq_nil_iff]
    intro empty
    obtain ⟨ch, rest, rfl⟩ := exists_cons_of_ne_nil nonempty
    have none := empty ch mem_cons_self
    split at none
    · exact encodeChar_ne_nil ch none
    · cases none
  · -- an encoded character would leave something that is not a dot
    refine level ((encodeComponent_of_legal fun ch member => ?_).symm.trans up)
    refine ⟨(parted ch member).1, (parted ch member).2, Bool.eq_false_iff.mpr fun illegal => ?_⟩
    obtain ⟨c, rest, encoded⟩ := exists_cons_of_ne_nil (encodeChar_ne_nil ch)
    have first : c ∈ encodeChar ch := encoded ▸ mem_cons_self
    have dots : c ∈ encodeComponent windows part := mem_flatMap.mpr ⟨ch, member, by rwa [if_pos illegal]⟩
    rw [up] at dots
    exact (legal_of_encodeChar windows first).2 (by simpa using dots)
  · obtain ⟨ch, there, member⟩ := mem_flatMap.mp member
    split at member
    · exact (legal_of_encodeChar windows member).1
    · rename_i legal
      rw [mem_singleton.mp member]
      exact ⟨(parted ch there).1, (parted ch there).2, Bool.eq_false_iff.mpr legal⟩

theorem mem_splitOn {items : Name} {sep : Char} (member : part ∈ items.splitOn sep) : ∀ ch ∈ part, ch ∈ items ∧ ch ≠ sep := by
  induction items generalizing part with
  | nil => simp_all
  | cons ch rest ih =>
    obtain ⟨first, more, parts⟩ := exists_cons_of_ne_nil (splitOn_ne_nil sep rest)
    rw [parts] at ih
    rw [splitOn_cons_eq_if_modifyHead, parts, modifyHead_cons] at member
    split at member
    · grind
    · grind

/-- No separator is left inside a component. -/
theorem parted (par2Name : Name) (entry : Name × Nat)
    (member : entry ∈ ((par2Name.map fun ch => if ch = backslash then '/' else ch).splitOn '/').zipIdx) :
    ∀ ch ∈ entry.1, ch ≠ '/' ∧ ch ≠ backslash := by
  intro ch inside
  obtain ⟨mapped, other⟩ := mem_splitOn (fst_mem_of_mem_zipIdx member) ch inside
  refine ⟨other, ?_⟩
  rintro rfl
  obtain ⟨source, _, same⟩ := mem_map.mp mapped
  split at same
  · exact absurd same (by decide)
  · contradiction

/-- A round that sees a name pushes a part, and what is pushed is clean. -/
theorem pushed_spec (windows : Bool) (normalized : Name) {entry : Name × Nat}
    (parted : ∀ ch ∈ entry.1, ch ≠ '/' ∧ ch ≠ backslash) :
    (sawNameComponent normalized entry = true → ∃ part, pushed windows normalized entry = some part) ∧
      ∀ part, pushed windows normalized entry = some part → Clean windows part := by
  have root : Clean windows "%2F".toList := ⟨by decide, by decide, by cases windows <;> exact all_iff_forall_prop.mp (by decide)⟩
  have level : Clean windows "%2E%2E".toList := ⟨by decide, by decide, by cases windows <;> exact all_iff_forall_prop.mp (by decide)⟩
  obtain ⟨part, index⟩ := entry
  by_cases empty : part = []
  · by_cases first : index = 0 ∧ normalized.head? = some '/'
    · simpa [sawNameComponent, pushed, empty, first] using root
    · simp [sawNameComponent, pushed, empty, first]
  · by_cases up : part = ['.', '.']
    · simpa [sawNameComponent, pushed, up] using level
    · have clean : Clean windows _ := clean_encodeComponent empty up parted
      simpa [sawNameComponent, pushed, empty, up, clean.nonempty] using clean

/-- A clean part is pushed as it is. -/
theorem Clean.pushed_eq (clean : Clean windows part) (normalized : Name) (index : Nat) :
    pushed windows normalized (part, index) = some part := by
  simp [pushed, clean.nonempty, clean.level, encodeComponent_of_legal clean.legal]

section
variable {parts : List Name} (clean : ∀ part ∈ parts, Clean windows part)
include clean

theorem legal_of_mem {ch : Char} (member : ch ∈ ['/'].intercalate parts) : ch = '/' ∨ Legal windows ch := by
  induction parts with
  | nil => cases member
  | cons part rest ih =>
    obtain ⟨first, others⟩ := forall_mem_cons.mp clean
    by_cases last : rest = []
    · rw [last, intercalate_singleton] at member
      exact .inr (first.legal ch member)
    · rw [intercalate_cons_of_ne_nil last, mem_append, mem_append, mem_singleton] at member
      rcases member with (inside | slash) | later
      · exact .inr (first.legal ch inside)
      · exact .inl slash
      · exact ih others later

theorem map_clean {f : Char → Char} (slash : f '/' = '/') (fixed : ∀ ch, ch ≠ '/' → ch ≠ backslash → f ch = ch) :
    (['/'].intercalate parts).map f = ['/'].intercalate parts := by
  refine (map_congr_left fun ch member => ?_).trans (map_id _)
  rcases legal_of_mem clean member with rfl | legal
  · exact slash
  · exact fixed ch legal.1 legal.2.1

variable (nonempty : parts ≠ [])
include nonempty

theorem exists_first : ∃ ch rest, ['/'].intercalate parts = ch :: rest ∧ Legal windows ch := by
  obtain ⟨part, more, rfl⟩ := exists_cons_of_ne_nil nonempty
  have first := clean part mem_cons_self
  obtain ⟨ch, tail, rfl⟩ := exists_cons_of_ne_nil first.nonempty
  exact ⟨ch, _, intercalate_cons_cons_left, first.legal ch mem_cons_self⟩

theorem splitOn_clean : (['/'].intercalate parts).splitOn '/' = parts :=
  splitOn_intercalate '/' (fun part member slash => ((clean part member).legal '/' slash).1 rfl) nonempty

theorem translate_clean :
    translatePar2NameToRelative windows (['/'].intercalate parts) = .ok (['/'].intercalate parts) := by
  have kept (normalized : Name) : parts.zipIdx.filterMap (pushed windows normalized) = parts := by
    refine (filterMap_congr fun entry member => ?_).trans
      ((congrFun filterMap_eq_map _).trans (zipIdx_map_fst 0 parts))
    exact (clean _ (fst_mem_of_mem_zipIdx member)).pushed_eq _ entry.2
  rw [translatePar2NameToRelative, map_clean clean (by decide) fun ch _ other => if_neg other, splitOn_clean clean nonempty,
    kept, if_pos]
  obtain ⟨part, rest, rfl⟩ := exists_cons_of_ne_nil nonempty
  simp [sawNameComponent, (clean part mem_cons_self).nonempty]

theorem components_clean : ∀ component ∈ components windows (['/'].intercalate parts),
    component = .curDir ∨ ∃ name, component = .normal name := by
  obtain ⟨ch, rest, path, legal⟩ := exists_first clean nonempty
  have name : isSeparator windows ch = false := by simp [isSeparator, legal.1, legal.2.1]
  have drive : startsWithPrefix windows (['/'].intercalate parts) = false := by
    cases windows with
    | false => rfl
    | true =>
      rw [path]
      cases rest with
      | nil => rfl
      | cons second _ =>
        have other : second ≠ ':' := by
          rintro rfl
          rcases legal_of_mem clean (path ▸ by simp : ':' ∈ ['/'].intercalate parts) with slash | legal
          · exact absurd slash (by decide)
          · exact absurd legal.2.2 (by decide)
        simp [startsWithPrefix, name, other]
  have split := splitOn_clean clean nonempty
  rw [components, drive, map_clean clean (by cases windows <;> decide) fun ch slash other => by simp [isSeparator, slash, other],
    split, path, head?_cons, any_some, name]
  intro component member
  obtain ⟨entry, there, same⟩ := mem_filterMap.mp member
  have part := clean _ (fst_mem_of_mem_zipIdx there)
  rw [if_neg part.nonempty, if_neg part.level] at same
  split at same
  · split at same
    · exact .inl (some.inj same).symm
    · cases same
  · exact .inr ⟨_, (some.inj same).symm⟩

end

/-- A translated name is a join of names that cannot leave the directory, its translation is itself,
and so the local path lies below the base directory. -/
theorem translatePar2Name_confined {windows : Bool} {par2Name relative : Name}
    (translated : translatePar2NameToRelative windows par2Name = .ok relative) :
    (∃ parts, parts ≠ [] ∧ relative = ['/'].intercalate parts ∧ ∀ part ∈ parts, part ≠ [] ∧ part ≠ ['.', '.'] ∧ '/' ∉ part) ∧
      relative.head? ≠ some '/' ∧ (∀ ch ∈ relative, ch ≠ backslash ∧ isControl ch = false) ∧
      translatePar2NameToRelative windows relative = .ok relative ∧
      ∀ baseDir, ∃ below, translatePar2NameToLocalPath windows par2Name baseDir = .ok (baseDir ++ below) ∧
        ∀ component ∈ below, component = .curDir ∨ ∃ name, component = .normal name := by
  obtain ⟨parts, nonempty, clean, rfl⟩ : ∃ parts, parts ≠ [] ∧ (∀ part ∈ parts, Clean windows part) ∧
      relative = ['/'].intercalate parts := by
    unfold translatePar2NameToRelative at translated
    dsimp only at translated
    have spec := fun entry member => @pushed_spec windows (par2Name.map fun ch => if ch = backslash then '/' else ch) entry
      (parted par2Name entry member)
    split at translated
    · rename_i saw
      cases translated
      refine ⟨_, ?_, fun part member => ?_, rfl⟩
      · obtain ⟨entry, there, named⟩ := any_eq_true.mp saw
        obtain ⟨part, push⟩ := (spec entry there).1 named
        exact ne_nil_of_mem (mem_filterMap.mpr ⟨entry, there, push⟩)
      · obtain ⟨entry, there, push⟩ := mem_filterMap.mp member
        exact (spec entry there).2 part push
    · cases translated
  refine ⟨⟨parts, nonempty, rfl, fun part member => ?_⟩, ?_, fun ch member => ?_, translate_clean clean nonempty, fun baseDir => ?_⟩
  · have part := clean part member
    exact ⟨part.nonempty, part.level, fun slash => (part.legal _ slash).1 rfl⟩
  · obtain ⟨ch, rest, path, legal⟩ := exists_first clean nonempty
    rw [path]
    exact fun slash => legal.1 (some.inj slash)
  · rcases legal_of_mem clean member with rfl | legal
    · decide
    · exact ⟨legal.2.1, (Bool.or_eq_false_iff.mp legal.2.2).1⟩
  · have inside := components_clean clean nonempty
    refine ⟨_, ?_, inside⟩
    rw [translatePar2NameToLocalPath, translated]
    exact if_neg (by grind)

theorem translatePar2Name_rooted : ∃ relative,
    translatePar2NameToRelative false "/tmp/../episode.rar".toList = .ok relative ∧
      relative = "%2F/tmp/%2E%2E/episode.rar".toList ∧ relative.head? ≠ some '/' :=
  ⟨_, rfl, by decide, (translatePar2Name_confined (show translatePar2NameToRelative false "/tmp/../episode.rar".toList = _ from rfl)).2.1⟩

end Name
end Rarpar.Par2


import Rarpar.Unrar.StoredLayout

namespace Rarpar.Unrar

/-- The UTF-8 bytes of a path. -/
abbrev PathBytes := List UInt8

namespace PathBytes

def slash : UInt8 := 47
def backslash : UInt8 := 92
def dot : UInt8 := 46
def colon : UInt8 := 58
def underscore : UInt8 := 95
def space : UInt8 := 32

/-- `str::replace` of one character by another. -/
def replace (old new : UInt8) (path : PathBytes) : PathBytes := path.map fun byte => if byte = old then new else byte

/-- The part before the first null character. -/
def untilNull (path : PathBytes) : PathBytes := path.takeWhile (· ≠ 0)

/-- `split('/')`. -/
def components (path : PathBytes) : List PathBytes := path.splitOn slash

end PathBytes

open PathBytes

inductive HostOs
  | windows
  | unix
  | darwin
  | unknown (value : UInt64)
deriving DecidableEq

/-! `convert_path_start` and its callers. A position in a path is given by what stands from it on. -/

/-- What follows `/../` or a closing `/..` at the start. -/
def afterTraversal : PathBytes → Option PathBytes
  | a :: b :: c :: rest =>
    if a = slash ∧ b = dot ∧ c = dot then
      match rest with
      | [] => some []
      | d :: tail => if d = slash then some tail else none
    else none
  | _ => none

/-- The first loop: the suffix after the last traversal, or `dest`. -/
def cutTraversals : PathBytes → PathBytes → PathBytes
  | dest, [] => dest
  | dest, byte :: rest => cutTraversals ((afterTraversal (byte :: rest)).getD dest) rest

def stripDrive (stripDriveSpecs : Bool) (path : PathBytes) : PathBytes :=
  if stripDriveSpecs && path[1]? == some colon then path.drop 2 else path

/-- The inner loop over a UNC name: what follows its second separator. -/
def afterSeparators : Nat → PathBytes → Option PathBytes
  | _, [] => none
  | count, byte :: rest =>
    if byte = slash then if count + 1 = 2 then some rest else afterSeparators (count + 1) rest
    else afterSeparators count rest

def stripUnc (path : PathBytes) : PathBytes :=
  match path with
  | a :: b :: rest => if a = slash ∧ b = slash then (afterSeparators 0 rest).getD path else path
  | _ => path

/-- The loop over leading dots and separators. -/
def skipLeading : PathBytes → PathBytes → PathBytes
  | start, [] => start
  | start, byte :: rest =>
    if byte = slash then skipLeading rest rest
    else if byte ≠ dot then start
    else skipLeading start rest

/-- One turn of the second loop. -/
def stripOnce (stripDriveSpecs : Bool) (path : PathBytes) : PathBytes :=
  let start := stripUnc (stripDrive stripDriveSpecs path)
  skipLeading start start

/-- The second loop; each turn but the last one moves on. -/
def stripStart (stripDriveSpecs : Bool) : Nat → PathBytes → PathBytes
  | 0, dest => dest
  | fuel + 1, dest =>
    if dest = [] then dest
    else
      let next := stripOnce stripDriveSpecs dest
      if next.length = dest.length then dest else stripStart stripDriveSpecs fuel next

/-- The part of the path from `convert_path_start` on. -/
def convertPathStart (path : PathBytes) (stripDriveSpecs : Bool) : PathBytes :=
  stripStart stripDriveSpecs path.length (cutTraversals path path)

def sanitizePath (raw : PathBytes) : PathBytes := convertPathStart ((untilNull raw).replace backslash slash) true

def windowsForbidden (byte : UInt8) : Bool :=
  byte < 0x20 || byte == 63 || byte == 42 || byte == 60 || byte == 62 || byte == 124 || byte == 34 || byte == colon

def toAsciiUppercase (byte : UInt8) : UInt8 := if 97 ≤ byte ∧ byte ≤ 122 then byte - 32 else byte

local instance lawfulBytes : LawfulBEq (List UInt8) := inferInstance

def windowsReservedDeviceComponent (component : PathBytes) : Bool :=
  let upper := component.map toAsciiUppercase
  upper ∈ ["CON", "PRN", "AUX", "NUL"].map (·.toUTF8.toList) ||
    (upper.length == 4 && (upper.take 3 ∈ ["COM", "LPT"].map (·.toUTF8.toList)) &&
      (upper.drop 3).all fun byte => 48 ≤ byte && byte ≤ 57)

def makeWindowsComponentCompatible (component : PathBytes) : PathBytes :=
  let converted := component.map fun byte => if windowsForbidden byte then underscore else byte
  let converted :=
    if converted ≠ [dot] ∧ converted ≠ [dot, dot] ∧ (converted.getLast? = some dot ∨ converted.getLast? = some space) then
      converted.dropLast ++ [underscore]
    else converted
  if windowsReservedDeviceComponent converted then underscore :: converted else converted

def makeWindowsMemberNameCompatible (path : PathBytes) : PathBytes :=
  [slash].intercalate (path.components.map makeWindowsComponentCompatible)

/-- `nfc` is the normalization of the Unicode tables. -/
def sanitizeMemberPathForTarget (nfc : PathBytes → PathBytes) (format : ArchiveFormat) (hostOs : HostOs) (raw : PathBytes)
    (targetIsWindows : Bool) : PathBytes :=
  let cleaned := untilNull raw
  let converted :=
    match format with
    | .rar5 => if targetIsWindows || hostOs == .windows then cleaned.replace backslash underscore else cleaned
    | .rar4 | .rar14 => cleaned.replace backslash slash
  let sanitized := convertPathStart converted targetIsWindows
  if targetIsWindows then
    let sanitized := sanitized.replace colon underscore
    let sanitized := if hostOs = .unix ∨ hostOs = .darwin then nfc sanitized else sanitized
    makeWindowsMemberNameCompatible sanitized
  else sanitized

/-! The checks of link targets. -/

def normalizeBackslashForPathCheck (path : PathBytes) (backslashIsSeparator : Bool) : PathBytes :=
  if backslashIsSeparator then path.replace backslash slash else path

def isAsciiAlphabetic (byte : UInt8) : Bool := (65 ≤ byte && byte ≤ 90) || (97 ≤ byte && byte ≤ 122)

/-- A letter and a colon at the start. -/
def hasDriveLetter : PathBytes → Bool
  | a :: b :: _ => isAsciiAlphabetic a && b == colon
  | _ => false

def isFullRootPath (path : PathBytes) (windowsDriveIsRoot : Bool) : Bool :=
  path.head? == some slash || (windowsDriveIsRoot && hasDriveLetter path)

/-- Whether the next component is `.`. -/
def dotFollows : PathBytes → Bool
  | a :: rest => a == dot && (rest.head?.all (· == slash))
  | [] => false

/-- Whether the next component is `..`. -/
def dotsFollow : PathBytes → Bool
  | a :: b :: rest => a == dot && b == dot && (rest.head?.all (· == slash))
  | _ => false

/-- The loop of `allowed_link_source_depth`; `none` is its early return. -/
def depthFrom : Int → PathBytes → Option Int
  | depth, [] => some depth
  | depth, byte :: rest =>
    if byte ≠ slash then depthFrom depth rest
    else if rest.head? = some slash then none
    else depthFrom (if dotsFollow rest then depth - 1 else if !dotFollows rest then depth + 1 else depth) rest

def allowedLinkSourceDepth (memberPath : PathBytes) : Nat :=
  match depthFrom 0 memberPath with
  | some depth => (max depth 0).toNat
  | none => 0

def targetParentTraversalCount (target : PathBytes) : Nat := target.components.countP (· == [dot, dot])

def isSafeLinkTargetInner (memberPath target : PathBytes) (allowWindowsDriveRelative memberBackslashIsSeparator
    targetBackslashIsSeparator memberWindowsDriveIsRoot : Bool) : Bool :=
  let memberPath := normalizeBackslashForPathCheck memberPath memberBackslashIsSeparator
  if isFullRootPath memberPath memberWindowsDriveIsRoot then false
  else
    let target := normalizeBackslashForPathCheck target targetBackslashIsSeparator
    if target.head? = some slash then false
    else if !allowWindowsDriveRelative && hasDriveLetter target then false
    else if target.contains 0 then false
    else targetParentTraversalCount target ≤ allowedLinkSourceDepth memberPath

def isSafeLinkTarget (memberPath target : PathBytes) : Bool :=
  isSafeLinkTargetInner memberPath target false true true true

def isSafeSymlinkTargetForArchiveMemberOnHost (format : ArchiveFormat) (memberPath rawMemberPath target : PathBytes)
    (windowsHost : Bool) : Bool :=
  let rawMemberBackslashIsSeparator := format ≠ .rar5
  let allowDriveRelative := !windowsHost
  isSafeLinkTargetInner memberPath target allowDriveRelative false false false &&
    isSafeLinkTargetInner rawMemberPath target allowDriveRelative rawMemberBackslashIsSeparator false false

end Rarpar.Unrar

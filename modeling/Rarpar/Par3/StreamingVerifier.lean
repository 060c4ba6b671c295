import Rarpar.Data.Frontier
import Rarpar.Par3.EngineError
import Rarpar.Par3.Extents

namespace Rarpar.Par3

/-! The out-of-order verifier of one file, from `evidence.rs`. -/

inductive ExtentVerdict
  | unknown
  | intact
  | damaged
  | unprotected
deriving DecidableEq

/-- What a verifier reads: the file, the hash, the length of the source, and which reservations are granted, by the number
of those before. -/
structure VerifierSource where
  file : ListedFile
  fingerprint : Hash
  length : Nat
  reserve : Nat → Nat → Bool

/-- The hasher of an extent is the bytes it was fed, and so is the hasher of the whole file. -/
structure StreamingVerifier where
  verdicts : Nat → ExtentVerdict
  partials : Nat → Option (Frontier UInt8)
  whole : List UInt8
  wholeNext : Nat
  wholeOrdered : Bool
  dropped : Nat
  requests : Nat

/-- What is sealed of a file. -/
structure FileEvidence where
  verdicts : List ExtentVerdict
  wholeMatches : Option Bool
deriving DecidableEq

namespace StreamingVerifier

def new (source : VerifierSource) : StreamingVerifier where
  verdicts index := if (source.file.extents[index]?).any FileExtent.isUnprotected then .unprotected else .unknown
  partials _ := none
  whole := []
  wholeNext := 0
  wholeOrdered := true
  dropped := 0
  requests := 0

def setVerdict (index : Nat) (verdict : ExtentVerdict) (verifier : StreamingVerifier) : StreamingVerifier :=
  { verifier with verdicts := fun other => if other = index then verdict else verifier.verdicts other }

def setPartial (index : Nat) (front : Option (Frontier UInt8)) (verifier : StreamingVerifier) : StreamingVerifier :=
  { verifier with partials := fun other => if other = index then front else verifier.partials other }

/-- One more reservation was asked for. -/
def asked (verifier : StreamingVerifier) : StreamingVerifier := { verifier with requests := verifier.requests + 1 }

/-- Discard the incomplete work of an extent. -/
def dropPartial (index : Nat) (verifier : StreamingVerifier) : StreamingVerifier :=
  { verifier.setPartial index none with dropped := verifier.dropped + 1 }

variable (source : VerifierSource)

/-! ### Extents -/

/-- Bytes beyond the frontier are kept, if they overlap none that are. -/
def keepFragment (index offset : Nat) (bytes : List UInt8) (front : Frontier UInt8) (verifier : StreamingVerifier) :
    StreamingVerifier × Option EngineError :=
  if front.overlaps offset bytes then (verifier, some (.resourceLimit "overlapping pending fragments"))
  else if 2 ^ 64 ≤ bytes.length + 128 then (verifier, some (.resourceLimit "pending fragment"))
  else if source.reserve verifier.requests (bytes.length + 128) then
    (verifier.asked.setPartial index (some (front.hold offset bytes)), none)
  else (verifier.asked, some (.resourceLimit "queued payloads"))

/-- Settle an extent whose bytes are all hashed. -/
def settle (index : Nat) (extent : FileExtent) (hashed : List UInt8) (verifier : StreamingVerifier) : StreamingVerifier :=
  match extent.expected source.fingerprint with
  | none => verifier
  | some expected => verifier.setVerdict index (if source.fingerprint hashed = expected then .intact else .damaged)

/-- `feed_extent`, once the extent has a frontier. -/
def feedFrontier (index : Nat) (extent : FileExtent) (offset : Nat) (bytes : List UInt8) (front : Frontier UInt8)
    (verifier : StreamingVerifier) : StreamingVerifier × Option EngineError :=
  if front.next < offset then keepFragment source index offset bytes front verifier
  else
    let front := front.advance offset bytes
    if front.next = extent.stop - extent.start then ((settle source index extent front.taken verifier).setPartial index none, none)
    else (verifier.setPartial index (some front), none)

def feedExtent (index : Nat) (extent : FileExtent) (offset : Nat) (bytes : List UInt8) (verifier : StreamingVerifier) :
    StreamingVerifier × Option EngineError :=
  match verifier.partials index with
  | some front => feedFrontier source index extent offset bytes front verifier
  | none =>
    if source.reserve verifier.requests 4096 then
      feedFrontier source index extent offset bytes .new (verifier.asked.setPartial index (some .new))
    else (verifier.asked, some (.resourceLimit "queued payloads"))

/-- An extent that is not settled is fed, and its frontier dropped if that is refused. -/
def feedUnknown (index : Nat) (extent : FileExtent) (offset : Nat) (bytes : List UInt8) (verifier : StreamingVerifier) :
    StreamingVerifier :=
  if verifier.verdicts index = .unknown then
    match feedExtent source index extent offset bytes verifier with
    | (fed, none) => fed
    | (refused, some _) => refused.dropPartial index
  else verifier

/-! ### The whole file -/

/-- Adjacent protected extents of one read are hashed as one run. The open run is carried along. -/
def trackRun (offset : Nat) (bytes : List UInt8) (unprotected : Bool) (first last : Nat) :
    List UInt8 × Option (Nat × Nat) → List UInt8 × Option (Nat × Nat)
  | (whole, none) => (whole, if unprotected then none else some (first, last))
  | (whole, some run) =>
    let closed := whole ++ Ranges.slice (run.1 - offset) (run.2 - offset) bytes
    if unprotected then (closed, none)
    else if run.2 = first then (whole, some (run.1, last))
    else (closed, some (first, last))

def closeRun (offset : Nat) (bytes : List UInt8) : List UInt8 × Option (Nat × Nat) → List UInt8
  | (whole, none) => whole
  | (whole, some run) => whole ++ Ranges.slice (run.1 - offset) (run.2 - offset) bytes

/-! ### A read -/

/-- The loop of `feed` over the extents that end after the offset, with the open run. -/
def feedLoop (offset : Nat) (bytes : List UInt8) : List (FileExtent × Nat) → Option (Nat × Nat) → StreamingVerifier → StreamingVerifier
  | [], run, verifier => { verifier with whole := closeRun offset bytes (verifier.whole, run) }
  | (extent, index) :: rest, run, verifier =>
    let stop := offset + bytes.length
    if stop ≤ extent.start then { verifier with whole := closeRun offset bytes (verifier.whole, run) }
    else
      let first := max extent.start offset
      let last := min extent.stop stop
      let (whole, run) :=
        if verifier.wholeOrdered then trackRun offset bytes extent.isUnprotected first last (verifier.whole, run)
        else (verifier.whole, run)
      let data := Ranges.slice (first - offset) (last - offset) bytes
      feedLoop offset bytes rest run (feedUnknown source index extent (first - extent.start) data { verifier with whole })

/-- The errors of a read that is not within the source. -/
def checkRead (offset : Nat) (bytes : List UInt8) : Except EngineError Unit :=
  if 2 ^ 64 ≤ offset + bytes.length then .error (.invalidState "verification offset overflow")
  else if source.length < offset + bytes.length then .error (.invalidState "bytes exceed source length")
  else .ok ()

/-- The order is lost when protected bytes were left out or come again. -/
def keepOrder (offset : Nat) (bytes : List UInt8) (verifier : StreamingVerifier) : StreamingVerifier :=
  if bytes ≠ [] ∧ source.file.unprotectedBetween verifier.wholeNext offset = false then { verifier with wholeOrdered := false }
  else verifier

def feed (offset : Nat) (bytes : List UInt8) (verifier : StreamingVerifier) : Except EngineError StreamingVerifier :=
  match checkRead source offset bytes with
  | .error e => .error e
  | .ok () =>
    let fed := feedLoop source offset bytes (source.file.extents.zipIdx.drop (source.file.firstAfter offset)) none
      (keepOrder source offset bytes verifier)
    .ok (if fed.wholeOrdered then { fed with wholeNext := offset + bytes.length } else fed)

/-- Reads one after another. -/
def feeds : List (Nat × List UInt8) → StreamingVerifier → Except EngineError StreamingVerifier
  | [], verifier => .ok verifier
  | read :: rest, verifier =>
    match feed source read.1 read.2 verifier with
    | .error e => .error e
    | .ok fed => feeds rest fed

/-- The loop of `feed_whole`. -/
def wholeLoop (offset : Nat) (bytes : List UInt8) : List FileExtent → List UInt8 × Option (Nat × Nat) → List UInt8
  | [], run => closeRun offset bytes run
  | extent :: rest, run =>
    let stop := offset + bytes.length
    if stop ≤ extent.start then closeRun offset bytes run
    else wholeLoop offset bytes rest (trackRun offset bytes extent.isUnprotected (max extent.start offset) (min extent.stop stop) run)

/-- Feed the hash of the whole file alone; false, and the bytes are not taken, once it cannot decide the file. -/
def feedWhole (offset : Nat) (bytes : List UInt8) (verifier : StreamingVerifier) : Except EngineError (Bool × StreamingVerifier) :=
  match checkRead source offset bytes with
  | .error e => .error e
  | .ok () =>
    let verifier := keepOrder source offset bytes verifier
    if verifier.wholeOrdered then
      let whole := wholeLoop offset bytes (source.file.extents.drop (source.file.firstAfter offset)) (verifier.whole, none)
      .ok (true, { verifier with whole, wholeNext := offset + bytes.length })
    else .ok (false, verifier)

/-! ### Evidence -/

def wholeResult (verifier : StreamingVerifier) : Option Bool :=
  if verifier.wholeOrdered ∧ source.file.unprotectedBetween verifier.wholeNext source.file.len ∧
      source.file.fingerprint ≠ .replicate 16 0 then
    some (source.fingerprint verifier.whole = source.file.fingerprint)
  else none

/-- The verdict that is sealed: a whole file that matches settles what is unknown. -/
def sealed (whole : Option Bool) (verdict : ExtentVerdict) : ExtentVerdict :=
  if whole = some true ∧ verdict = .unknown then .intact else verdict

def finish (verifier : StreamingVerifier) : FileEvidence where
  verdicts := (List.range source.file.extents.length).map fun index => sealed (wholeResult source verifier) (verifier.verdicts index)
  wholeMatches := wholeResult source verifier

end StreamingVerifier
end Rarpar.Par3

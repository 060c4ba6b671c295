import Rarpar.Unrar.Filter
import Rarpar.Unrar.Window

namespace Rarpar.Unrar

/-- `MAX_PENDING_FILTERS`. -/
def maxPendingFilters : Nat := 8192

/-- `UNPACK_MAX_WRITE`. -/
def unpackMaxWrite : Nat := 0x400000

/-- `MAX_INCREMENTAL_LZ_MATCH`. -/
def maxIncrementalLzMatch : Nat := 0x1004

/-- The fields of `LzDecoder` that writing uses, with the bytes handed to the writer so far. -/
structure LzOutput where
  window : Window
  pendingFilters : List PendingFilter
  flushAt : Nat
  currentFileBaseTotal : Nat
  currentFileWrittenSize : Nat
  currentFileEmitted : Nat
  currentFileUnpackedSize : Nat
  sink : List UInt8

/-- Code that writes; a failure leaves what was written before it. -/
abbrev Writing (α : Type) : Type := LzOutput → EStateM.Result RarError LzOutput α

namespace LzOutput

def flushThreshold (o : LzOutput) : Nat := min (max o.window.dictSize 1) unpackMaxWrite

def flushBorder (totalWritten totalFlushed dictSize writeSpan : Nat) : Nat :=
  min (totalWritten + writeSpan) (totalFlushed + dictSize) - maxIncrementalLzMatch

def recomputeFlushBorder (o : LzOutput) : LzOutput :=
  { o with flushAt := flushBorder o.window.totalWritten o.window.totalFlushed o.window.dictSize o.flushThreshold }

/-- The part of `begin_file_decode` that sets up writing. -/
def beginFileDecode (unpackedSize : Nat) (o : LzOutput) : LzOutput :=
  recomputeFlushBorder
    { o with
      pendingFilters := []
      currentFileBaseTotal := o.window.totalWritten
      currentFileWrittenSize := 0
      currentFileEmitted := 0
      currentFileUnpackedSize := unpackedSize
      window := o.window.markFlushed o.window.totalWritten }

/-- Nothing is emitted once the written size has reached the declared size, and then the size stays;
before that it grows by the whole span. -/
def writeRawSpan (advanceTo : Nat) : Writing Unit := fun o =>
  let border := o.window.totalFlushed
  let advanceTo := min advanceTo o.window.totalWritten
  if advanceTo ≤ border then .ok () o
  else
    let span := advanceTo - border
    if o.currentFileWrittenSize < o.currentFileUnpackedSize then
      let left := o.currentFileUnpackedSize - o.currentFileWrittenSize
      match o.window.flushVisibleUntil (border + min span left) with
      | .ok (bytes, emitted, window) =>
        .ok ()
          { o with
            window := window.markFlushed advanceTo
            currentFileEmitted := o.currentFileEmitted + emitted
            currentFileWrittenSize := o.currentFileWrittenSize + span
            sink := o.sink ++ bytes }
      | .error error => .error error o
    else .ok () { o with window := o.window.markFlushed advanceTo }

def flushUnfilteredStreamOutput : Writing Unit := fun o =>
  match writeRawSpan o.window.totalWritten o with
  | .ok _ o => .ok () o.recomputeFlushBorder
  | .error error o => .error error o

/-- A complete block is written through its filter, without a clamp. -/
def writeBlock (f : PendingFilter) (block : List UInt8) (o : LzOutput) : LzOutput :=
  { o with
    window := o.window.markFlushed f.blockEnd
    currentFileEmitted :=
      if f.filterType.emitsOutput then o.currentFileEmitted + f.blockLength else o.currentFileEmitted
    currentFileWrittenSize := o.currentFileWrittenSize + f.blockLength
    sink := o.sink ++ f.output o.currentFileWrittenSize block }

/-- The loop over the queue: how far the output is written, how many filters are done. -/
def retireLoop (total : Nat) : List PendingFilter → Nat → Nat → Writing (Nat × Nat)
  | [], writtenUpTo, retired, o => .ok (writtenUpTo, retired) o
  | f :: rest, writtenUpTo, retired, o =>
    if f.blockStart < writtenUpTo then retireLoop total rest writtenUpTo (retired + 1) o
    else
      let prefixEnd := min f.blockStart total
      match (if prefixEnd > writtenUpTo then writeRawSpan prefixEnd o else .ok () o) with
      | .error error o => .error error o
      | .ok _ o =>
        let writtenUpTo := max writtenUpTo prefixEnd
        if f.blockEnd > total then .ok (writtenUpTo, retired) o
        else
          match o.window.tryCopyOutput f.blockStart f.blockLength with
          | .error error => .error error o
          | .ok block => retireLoop total rest f.blockEnd (retired + 1) (o.writeBlock f block)

/-- What is left of the queue, and the rest of the output if nothing is. -/
def retireTail (total : Nat) (counts : Nat × Nat) : Writing Nat := fun o =>
  let (writtenUpTo, retired) := counts
  if retired = o.pendingFilters.length then
    let o := { o with pendingFilters := [] }
    if writtenUpTo < total then
      match writeRawSpan total o with
      | .ok _ o => .ok total o
      | .error error o => .error error o
    else .ok writtenUpTo o
  else .ok writtenUpTo { o with pendingFilters := o.pendingFilters.drop retired }

def flushFiltersAndWrite : Writing Unit := fun o =>
  if o.pendingFilters.isEmpty then flushUnfilteredStreamOutput o
  else
    let total := o.window.totalWritten
    match retireLoop total o.pendingFilters o.window.totalFlushed 0 o with
    | .error error o => .error error o
    | .ok counts o =>
      match retireTail total counts o with
      | .error error o => .error error o
      | .ok writtenUpTo o => .ok () ({ o with window := o.window.markFlushed writtenUpTo }).recomputeFlushBorder

def flushStreamOutput : Writing Unit := fun o =>
  if o.pendingFilters.isEmpty then flushUnfilteredStreamOutput o
  else
    match flushFiltersAndWrite o with
    | .error error o => .error error o
    | .ok _ o =>
      if o.window.unflushedBytes > o.window.dictSize then
        .error (.corruptArchive "RAR5 pending filters exceeded dictionary window before flush") o
      else .ok () o

/-- The declared size, widened to the reach of the queued blocks by at most one dictionary. -/
def decodeLimit (o : LzOutput) : Nat :=
  let limit := o.pendingFilters.foldl
    (fun limit f => max limit (f.blockEnd - o.currentFileBaseTotal)) o.currentFileUnpackedSize
  min limit (o.currentFileUnpackedSize + o.window.dictSize)

def registerPendingFilter (f : PendingFilter) : Writing Unit := fun o =>
  if o.pendingFilters.length ≥ maxPendingFilters then
    match flushFiltersAndWrite o with
    | .error error o => .error error o
    | .ok _ o =>
      let queue := if o.pendingFilters.length ≥ maxPendingFilters then [] else o.pendingFilters
      .ok () { o with pendingFilters := pushPendingFilter queue f }
  else .ok () { o with pendingFilters := pushPendingFilter o.pendingFilters f }

end LzOutput
end Rarpar.Unrar

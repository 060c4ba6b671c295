import Rarpar.Par3.AuthenticatingWriter

namespace Rarpar.Par3
open Bytes

/-! The resumable scanner of a carrier that arrives in pieces. -/

/-- A carrier and the budgets its scanner runs under. The contents are fixed; how much of them is there at each read is not. -/
structure Carrier where
  data : List UInt8
  /-- How many bytes the source has at most to offer at each read. -/
  answers : Nat → Nat
  /-- Whether the work budget cannot cover a whole fill at this read. -/
  narrow : Nat → Bool
  /-- Whether the memory budget grants a request, by its number and its bytes. -/
  reserve : Nat → Nat → Bool
  stripe : Nat
  ahead : Nat
  limits : ScanLimits
  retainedBytes : Nat
  stripe_long : headerSize ≤ stripe
  ahead_long : stripe ≤ ahead

def Carrier.retentionCeiling (carrier : Carrier) : Nat := min carrier.retainedBytes carrier.limits.maxRetainedBytes

/-- The filled part of the read-ahead buffer and where it was read. -/
structure ScanReadAhead where
  offset : Nat
  bytes : List UInt8
  /-- The reads so far. -/
  reads : Nat

/-- At most `size` bytes at an offset, from the buffer or after a new fill of it. -/
def ScanReadAhead.readAt (carrier : Carrier) (readAhead : ScanReadAhead) (offset size : Nat) : List UInt8 × ScanReadAhead :=
  let filled :=
    if offset < readAhead.offset ∨ readAhead.bytes.length ≤ offset - readAhead.offset then
      let whole := min (carrier.data.length - offset) carrier.ahead
      let take := if carrier.narrow readAhead.reads then min whole carrier.stripe else whole
      ⟨offset, (carrier.data.drop offset).take (min (carrier.answers readAhead.reads) take), readAhead.reads + 1⟩
    else readAhead
  ((filled.bytes.drop (offset - filled.offset)).take size, filled)

/-- Read from `start` on until there are `need` bytes, never more than `size`. The last component says that a byte is missing. -/
def ScanReadAhead.readUntil (carrier : Carrier) (start need size : Nat) :
    (fuel : Nat) → ScanReadAhead → List UInt8 → List UInt8 × ScanReadAhead × Bool
  | 0, readAhead, bytes => (bytes, readAhead, false)
  | fuel + 1, readAhead, bytes =>
    if bytes.length < need then
      match readAhead.readAt carrier (start + bytes.length) (size - bytes.length) with
      | ([], readAhead) => (bytes, readAhead, true)
      | (more, readAhead) => readUntil carrier start need size fuel readAhead (bytes ++ more)
    else (bytes, readAhead, false)

/-- A candidate that is being hashed. -/
structure Candidate where
  header : PacketHeader
  offset : Nat
  consumed : Nat
  /-- The bytes the hasher was fed. -/
  hashed : List UInt8
  retained : List UInt8
  /-- What stands before the payload, as far as it was read. -/
  head : List UInt8

/-- A packet whose hash was checked and that waits for the budget. -/
structure Authenticated where
  header : PacketHeader
  offset : Nat
  retained : List UInt8
  head : List UInt8

inductive PayloadKind
  | data (index : Nat)
  | recovery (root matrix : Fingerprint) (index : Nat)
deriving DecidableEq

inductive IngestedContents
  | metadata (packet : Packet)
  | payload (header : PacketHeader) (kind : PayloadKind) (dataOffset : Nat)
deriving DecidableEq

structure IngestedPacket where
  contents : IngestedContents
  offset : Nat
  length : Nat
deriving DecidableEq

/-- The fingerprint of an authenticated packet. -/
def IngestedPacket.hash (packet : IngestedPacket) : Fingerprint :=
  match packet.contents with
  | .metadata packet => packet.hash
  | .payload header _ _ => header.hash

inductive ScanEvent
  | packet (packet : IngestedPacket)
  | needData (offset : Nat)
  | «end»
deriving DecidableEq

structure PacketScanner where
  offset : Nat
  candidate : Option Candidate
  authenticated : Option Authenticated
  atPacketBoundary : Bool
  failedHashBytes : Nat
  packets : Nat
  readAhead : ScanReadAhead
  /-- The requests to the memory budget so far. -/
  requests : Nat

namespace PacketScanner

def new : PacketScanner := ⟨0, none, none, false, 0, 0, ⟨0, [], 0⟩, 0⟩

/-- What a round of the loop in `poll` does: it returns, or the next round begins. -/
inductive Round
  | returns (result : Except EngineError ScanEvent) (scanner : PacketScanner)
  | continues (scanner : PacketScanner)

variable (fingerprint : Hash) (carrier : Carrier)

/-- The packet an authenticated one is handed out as. -/
def contentsOf (authenticated : Authenticated) : Except EngineError IngestedContents :=
  let header := authenticated.header
  let head := authenticated.head
  match prefixLen header.packetType with
  | 0 =>
    match Packet.parse fingerprint authenticated.retained authenticated.offset .new with
    | .ok packet => .ok (.metadata packet)
    | .error e => .error (.format e)
  | 8 => .ok (.payload header (.data (leNat (head.take 8))) (authenticated.offset + headerSize + 8))
  | size =>
    .ok (.payload header (.recovery (array 16 head 0) (array 16 head 16) (leNat ((head.drop 32).take 8)))
      (authenticated.offset + headerSize + size))

/-- Offer a packet to the budget. Only metadata has to ask for more than was reserved when its candidate was opened. -/
def admitPacket (scanner : PacketScanner) (authenticated : Authenticated) : Round :=
  let scanner := { scanner with authenticated := none }
  if carrier.limits.maxPackets ≤ scanner.packets then .returns (.error (.resourceLimit "packet count")) scanner
  else
    let metadata := prefixLen authenticated.header.packetType = 0
    let cost := authenticated.header.length + packetOverheadBytes
    let asked := { scanner with requests := scanner.requests + if metadata then 1 else 0 }
    if metadata ∧ ¬ carrier.reserve scanner.requests cost then
      .returns (.error (.resourceLimit "carrier and packet storage")) { asked with authenticated := some authenticated }
    else
      let moved := { asked with
        packets := scanner.packets + 1
        offset := authenticated.offset + authenticated.header.length
        atPacketBoundary := true }
      match contentsOf fingerprint authenticated with
      | .error e => .returns (.error e) moved
      | .ok contents => .returns (.ok (.packet ⟨contents, authenticated.offset, authenticated.header.length⟩)) moved

/-- The first of the windows of eight bytes that is the magic sequence. -/
def magicWindow (buffer : List UInt8) : Option Nat := (List.range (buffer.length - 7)).find? fun i => (buffer.drop i).take 8 = magic

/-- The charge for a candidate whose header is good. -/
def openCandidate (scanner : PacketScanner) (header : PacketHeader) (bytes : List UInt8) : Except EngineError Candidate × PacketScanner :=
  let retained := if prefixLen header.packetType = 0 then header.length else 0
  let cost := retained + packetOverheadBytes
  if carrier.retentionCeiling < cost then
    (.error (.budgetLimit "metadata packet retention" cost carrier.retentionCeiling carrier.retentionCeiling), scanner)
  else
    let asked := { scanner with requests := scanner.requests + 1 }
    if carrier.reserve scanner.requests cost then
      (.ok ⟨header, scanner.offset, headerSize, bytes.drop hashedFrom, if prefixLen header.packetType = 0 then bytes else [], []⟩, asked)
    else (.error (.resourceLimit "carrier and packet storage"), asked)

/-- How the search for the next candidate ends. -/
inductive SearchResult
  | round (round : Round)
  | found (candidate : Candidate) (scanner : PacketScanner)

/-- The header at the place of the scanner, whose first bytes were read in the search. -/
def readHeader (scanner : PacketScanner) (bytes : List UInt8) : SearchResult :=
  match scanner.readAhead.readUntil carrier scanner.offset headerSize headerSize headerSize bytes with
  | (bytes, readAhead, true) => .round (.returns (.ok (.needData (scanner.offset + bytes.length))) { scanner with readAhead := readAhead })
  | (bytes, readAhead, false) =>
    let scanner := { scanner with readAhead := readAhead }
    let refused := SearchResult.round (.continues { scanner with offset := scanner.offset + 8 })
    match PacketHeader.parse bytes scanner.offset with
    | .error _ => refused
    | .ok header =>
      if ¬ (header.length ≤ carrier.limits.maxPacketLen ∧ header.length ≤ carrier.data.length - scanner.offset) then refused
      else if header.length < headerSize + prefixLen header.packetType then refused
      else
        match openCandidate carrier scanner header bytes with
        | (.error e, scanner) => .round (.returns (.error e) scanner)
        | (.ok candidate, scanner) => .found candidate { scanner with candidate := some candidate }

/-- The search for the next candidate. -/
def search (scanner : PacketScanner) : SearchResult :=
  if carrier.data.length ≤ scanner.offset then .round (.returns (.ok .end) scanner)
  else
    let searchSize := if scanner.atPacketBoundary then headerSize else carrier.stripe
    let scanner := { scanner with atPacketBoundary := false }
    let take := min (carrier.data.length - scanner.offset) searchSize
    if take < 8 then .round (.returns (.ok .end) { scanner with offset := carrier.data.length })
    else
      match scanner.readAhead.readUntil carrier scanner.offset 8 take 8 [] with
      | (bytes, readAhead, true) => .round (.returns (.ok (.needData (scanner.offset + bytes.length))) { scanner with readAhead := readAhead })
      | (bytes, readAhead, false) =>
        let scanner := { scanner with readAhead := readAhead }
        match magicWindow bytes with
        | none => .round (.continues { scanner with offset := scanner.offset + (bytes.length - 7) })
        | some found =>
          let scanner := { scanner with offset := scanner.offset + found }
          if carrier.data.length - scanner.offset < headerSize then
            .round (.returns (.ok .end) { scanner with offset := carrier.data.length })
          else readHeader carrier scanner ((bytes.drop found).take headerSize)

/-- Feed a candidate until it is complete or a byte is missing. -/
def feedCandidate : (fuel : Nat) → ScanReadAhead → Candidate → ScanReadAhead × Candidate × Bool
  | 0, readAhead, candidate => (readAhead, candidate, false)
  | fuel + 1, readAhead, candidate =>
    if candidate.consumed < candidate.header.length then
      let take := min (candidate.header.length - candidate.consumed) carrier.stripe
      match readAhead.readAt carrier (candidate.offset + candidate.consumed) take with
      | ([], readAhead) => (readAhead, candidate, true)
      | (bytes, readAhead) =>
        let size := prefixLen candidate.header.packetType
        feedCandidate fuel readAhead { candidate with
          hashed := candidate.hashed ++ bytes
          retained := if size = 0 then candidate.retained ++ bytes else candidate.retained
          head := candidate.head ++ bytes.take (size - min (candidate.consumed - headerSize) size)
          consumed := candidate.consumed + bytes.length }
    else (readAhead, candidate, false)

/-- A candidate that was hashed for nothing. -/
def rejectCandidate (scanner : PacketScanner) (candidate : Candidate) : Round :=
  let failedHashBytes := saturatingAdd scanner.failedHashBytes candidate.header.length
  let scanner := { scanner with failedHashBytes := failedHashBytes }
  if saturatingMul carrier.data.length carrier.limits.maxFailedHashPasses < failedHashBytes then
    .returns (.error (.resourceLimit "failed packet hashing work")) scanner
  else .continues { scanner with offset := candidate.offset + 8 }

/-- A candidate is read to its end and checked. -/
def hashCandidate (scanner : PacketScanner) (candidate : Candidate) : Round :=
  match feedCandidate carrier candidate.header.length scanner.readAhead candidate with
  | (readAhead, candidate, true) =>
    .returns (.ok (.needData (candidate.offset + candidate.consumed))) { scanner with readAhead := readAhead, candidate := some candidate }
  | (readAhead, candidate, false) =>
    let scanner := { scanner with readAhead := readAhead, candidate := none }
    if fingerprint candidate.hashed ≠ candidate.header.hash then rejectCandidate carrier scanner candidate
    else admitPacket fingerprint carrier scanner ⟨candidate.header, candidate.offset, candidate.retained, candidate.head⟩

/-- One round of the loop in `poll`. -/
def round (scanner : PacketScanner) : Round :=
  match scanner.authenticated with
  | some authenticated => admitPacket fingerprint carrier scanner authenticated
  | none =>
    match scanner.candidate with
    | some candidate => hashCandidate fingerprint carrier scanner candidate
    | none =>
      match search carrier scanner with
      | .round round => round
      | .found candidate scanner => hashCandidate fingerprint carrier scanner candidate

/-- The loop of `poll`. Nothing is returned only if the fuel runs out. -/
def rounds : Nat → PacketScanner → Option (Except EngineError ScanEvent × PacketScanner)
  | 0, _ => none
  | fuel + 1, scanner =>
    match round fingerprint carrier scanner with
    | .returns result scanner => some (result, scanner)
    | .continues scanner => rounds fuel scanner

/-- Every round that goes on moves the offset, so the length of the carrier bounds their number. -/
def poll (scanner : PacketScanner) : Option (Except EngineError ScanEvent × PacketScanner) :=
  rounds fingerprint carrier (carrier.data.length + 1) scanner

/-- A number of polls, with what each of them returned. -/
def polls : Nat → PacketScanner → Option (List (Except EngineError ScanEvent) × PacketScanner)
  | 0, scanner => some ([], scanner)
  | count + 1, scanner =>
    match poll fingerprint carrier scanner with
    | none => none
    | some (result, scanner) =>
      match polls count scanner with
      | none => none
      | some (results, scanner) => some (result :: results, scanner)

end PacketScanner
end Rarpar.Par3

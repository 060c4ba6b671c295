import Rarpar.Par3.EngineError
import Rarpar.Par3.Scan

namespace Rarpar.Par3
open Bytes

/-! The writer that authenticates the packets of a carrier as they are handed to its file. -/

/-- The bytes of a payload packet that stand before the payload. -/
def prefixLen : PacketType → Nat
  | .data => 8
  | .recoveryData => 40
  | _ => 0

/-- What the budget is charged for a packet besides its bytes. -/
def packetOverheadBytes : Nat := 512

/-- What a writer is made with. -/
structure WriterOptions where
  id : InputSetId
  limits : ScanLimits
  retainedBytes : Nat
  /-- The packets the caller will repeat. -/
  known : List (List UInt8)
  /-- Whether the memory budget grants a reservation, by its number and its bytes. -/
  reserve : Nat → Nat → Bool

/-- What one packet may have the writer retain. -/
def WriterOptions.retentionCeiling (options : WriterOptions) : Nat := min options.retainedBytes options.limits.maxRetainedBytes

structure WrittenPacket where
  header : PacketHeader
  offset : Nat
  consumed : Nat
  /-- The bytes the hasher was fed. -/
  hashed : List UInt8
  retained : Option (List UInt8)
  copyOf : Option Nat

/-- The known packets by the hash they claim, each with whether a copy of it was proven. -/
abbrev Claims := Fingerprint → Option (Nat × Bool)

structure AuthenticatingWriter where
  /-- The bytes passed on. -/
  inner : List UInt8
  written : Nat
  packets : Nat
  nextPacket : Nat
  /-- The filled part of the header buffer. -/
  header : List UInt8
  packet : Option WrittenPacket
  claimed : Claims
  /-- The reservations asked for so far. -/
  reservations : Nat

namespace AuthenticatingWriter

abbrev Outcome := EStateM.Result EngineError AuthenticatingWriter Unit

/-- The first known packet that claims a hash stands for it. -/
def claims (known : List (List UInt8)) : Claims := fun hash =>
  (known.findIdx? fun packet => 24 ≤ packet.length ∧ array 16 packet 8 = hash).map fun index => (index, false)

/-- `new` followed by `with_known`. -/
def new (options : WriterOptions) : AuthenticatingWriter := ⟨[], 0, 0, 0, [], none, claims options.known, 0⟩

/-- A copy that was authenticated in full proves the known packet it is equal to. -/
def prove (known : List (List UInt8)) (claimed : Claims) (hash : Fingerprint) (retained : List UInt8) : Claims :=
  match claimed hash with
  | some (index, false) => if known.getD index [] = retained then Function.update claimed hash (some (index, true)) else claimed
  | _ => claimed

def unauthenticated : EngineError := .invalidState "staged carrier has unauthenticated bytes"

variable (fingerprint : Hash) (options : WriterOptions)

def closePacket (writer : AuthenticatingWriter) (packet : WrittenPacket) : Outcome :=
  let writer := { writer with packet := none }
  if packet.copyOf = none ∧ fingerprint packet.hashed ≠ packet.header.hash then .error unauthenticated writer
  else if options.limits.maxPackets ≤ writer.packets then .error (.resourceLimit "packet count") writer
  else
    let closed := { writer with packets := writer.packets + 1, nextPacket := packet.offset + packet.header.length }
    match packet.retained with
    | none => .ok () closed
    | some retained =>
      match Packet.parse fingerprint retained packet.offset .new with
      | .error e => .error (.format e) writer
      | .ok _ => .ok () { closed with claimed := prove options.known writer.claimed packet.header.hash retained }

/-- A packet whose header is complete; a packet without a body is closed at once. -/
def startPacket (writer : AuthenticatingWriter) (packet : WrittenPacket) : Outcome :=
  if packet.header.length = headerSize then closePacket fingerprint options writer packet
  else .ok () { writer with packet := some packet }

/-- The charge for a packet that has to be retained. -/
def retain (writer : AuthenticatingWriter) (header : PacketHeader) : Outcome :=
  let cost := header.length + packetOverheadBytes
  if options.retentionCeiling < cost then
    .error (.budgetLimit "metadata packet retention" cost options.retentionCeiling options.retentionCeiling) writer
  else
    let asked := { writer with reservations := writer.reservations + 1 }
    if options.reserve writer.reservations (cost * 2) then .ok () asked else .error (.resourceLimit "carrier and packet storage") asked

/-- The known packet a new one is compared with instead of being hashed. -/
def copyIndex (claimed : Claims) (header : PacketHeader) : Option Nat :=
  if prefixLen header.packetType = 0 then
    match claimed header.hash with
    | some (index, true) => some index
    | _ => none
  else none

/-- A header was filled. -/
def openPacket (writer : AuthenticatingWriter) (bytes : List UInt8) : Outcome :=
  let offset := writer.nextPacket
  match PacketHeader.parse bytes offset with
  | .error _ => .error unauthenticated writer
  | .ok header =>
    if ¬ (header.length ≤ options.limits.maxPacketLen ∧ header.inputSetId = options.id) then .error unauthenticated writer
    else if header.length < headerSize + prefixLen header.packetType then .error unauthenticated writer
    else
      match copyIndex writer.claimed header with
      | some index =>
        let known := options.known.getD index []
        if known.length ≠ header.length ∨ known.take headerSize ≠ bytes then .error unauthenticated writer
        else startPacket fingerprint options writer ⟨header, offset, headerSize, [], none, some index⟩
      | none =>
        let hashed := bytes.drop hashedFrom
        if prefixLen header.packetType = 0 then
          match retain options writer header with
          | .error e writer => .error e writer
          | .ok () writer => startPacket fingerprint options writer ⟨header, offset, headerSize, hashed, some bytes, none⟩
        else startPacket fingerprint options writer ⟨header, offset, headerSize, hashed, none, none⟩

/-- Bytes for the header buffer: those taken, and what the writer then is. -/
def fillHeader (writer : AuthenticatingWriter) (bytes : List UInt8) : Nat × Outcome :=
  let take := min (headerSize - writer.header.length) bytes.length
  let header := writer.header ++ bytes.take take
  (take,
    if header.length = headerSize then openPacket fingerprint options { writer with header := [] } header
    else .ok () { writer with header := header })

/-- Bytes for the body of the open packet. -/
def fillPacket (writer : AuthenticatingWriter) (packet : WrittenPacket) (bytes : List UInt8) : Nat × Outcome :=
  let take := min (packet.header.length - packet.consumed) bytes.length
  let taken := bytes.take take
  let proceed (packet : WrittenPacket) : Outcome :=
    let packet := { packet with consumed := packet.consumed + take }
    if packet.consumed = packet.header.length then closePacket fingerprint options writer packet
    else .ok () { writer with packet := some packet }
  (take,
    match packet.copyOf with
    | some index =>
      if taken ≠ ((options.known.getD index []).drop packet.consumed).take take then .error unauthenticated writer
      else proceed packet
    | none => proceed { packet with hashed := packet.hashed ++ taken, retained := packet.retained.map (· ++ taken) })

/-- One round of the loop. -/
def feed (writer : AuthenticatingWriter) (bytes : List UInt8) : Nat × Outcome :=
  match writer.packet with
  | none => fillHeader fingerprint options writer bytes
  | some packet => fillPacket fingerprint options writer packet bytes

/-- The loop over the bytes. Each round takes a byte, so their number is enough fuel. -/
def authenticate : (fuel : Nat) → AuthenticatingWriter → List UInt8 → Outcome
  | 0, writer, _ => .ok () writer
  | _ + 1, writer, [] => .ok () writer
  | fuel + 1, writer, bytes =>
    match feed fingerprint options writer bytes with
    | (take, .ok () writer) => authenticate fuel writer (bytes.drop take)
    | (_, .error e writer) => .error e writer

end AuthenticatingWriter

/-- A call of `write`: the bytes, and how many of them the sink accepts, if it does not fail. -/
structure Write where
  bytes : List UInt8
  accepted : Option Nat
  fits : ∀ count ∈ accepted, count ≤ bytes.length

/-- The bytes of a call that are passed on. -/
def Write.passed (call : Write) : List UInt8 := call.bytes.take (call.accepted.getD 0)

inductive WriteError
  /-- The sink failed. -/
  | sink
  /-- The bytes were passed on and not authenticated. -/
  | refused (e : EngineError)

namespace AuthenticatingWriter
variable (fingerprint : Hash) (options : WriterOptions)

def write (writer : AuthenticatingWriter) (call : Write) : EStateM.Result WriteError AuthenticatingWriter Nat :=
  match call.accepted with
  | none => .error .sink writer
  | some count =>
    let bytes := call.bytes.take count
    match authenticate fingerprint options count { writer with inner := writer.inner ++ bytes } bytes with
    | .error e writer => .error (.refused e) writer
    | .ok () writer => .ok count { writer with written := writer.written + count }

/-- A sequence of calls, with the answer to each. -/
def writes : AuthenticatingWriter → List Write → AuthenticatingWriter × List (Except WriteError Nat)
  | writer, [] => (writer, [])
  | writer, call :: rest =>
    match write fingerprint options writer call with
    | .ok count writer =>
      let (writer, answers) := writes writer rest
      (writer, .ok count :: answers)
    | .error e writer =>
      let (writer, answers) := writes writer rest
      (writer, .error e :: answers)

/-- None of the answers refuses bytes that were passed on. -/
def Unrefused (answers : List (Except WriteError Nat)) : Prop := ∀ e, .error (.refused e) ∉ answers

def finish (writer : AuthenticatingWriter) (expected : Nat) : Except EngineError Unit :=
  if writer.written ≠ expected then .error (.invalidState "creation size differs from plan")
  else if writer.packet.isSome ∨ writer.header.length ≠ 0 then
    .error (.invalidState "staged carrier authentication is incomplete")
  else .ok ()

end AuthenticatingWriter
end Rarpar.Par3

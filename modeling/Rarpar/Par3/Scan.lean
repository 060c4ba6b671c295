import Rarpar.Data.Resync
import Rarpar.Data.Search
import Rarpar.Par3.PacketRoundTrip

namespace Rarpar.Par3
open Bytes Resync List PacketHeader Search

/-! Finding packets in bytes. -/

/-- `u64::saturating_add`. -/
def saturatingAdd (a b : Nat) : Nat := min (a + b) (2 ^ 64 - 1)

/-- `u64::saturating_mul`. -/
def saturatingMul (a b : Nat) : Nat := min (a * b) (2 ^ 64 - 1)

structure ScanLimits where
  maxPacketLen : Nat
  maxPackets : Nat
  maxRetainedBytes : Nat
  maxFailedHashPasses : Nat

namespace ScanLimits

def defaultMaxPacketLen : Nat := 1 <<< 30
def defaultMaxPackets : Nat := 1000000
def defaultMaxRetainedBytes : Nat := 4 <<< 30
def defaultMaxFailedHashPasses : Nat := 8

def default : ScanLimits := ⟨defaultMaxPacketLen, defaultMaxPackets, defaultMaxRetainedBytes, defaultMaxFailedHashPasses⟩

end ScanLimits

/-- The loop of `find_magic`: from one first byte of the magic sequence to the next. -/
def findMagicFrom (data : List UInt8) (lastStart : Nat) : (fuel index : Nat) → Option Nat
  | 0, _ => none
  | fuel + 1, index =>
    if index ≤ lastStart then
      match ((data.drop index).take (lastStart + 1 - index)).findIdx? (· == 80) with
      | none => none
      | some step =>
        let candidate := index + step
        if magic.isPrefixOf (data.drop candidate) then some candidate else findMagicFrom data lastStart fuel (candidate + 1)
    else none

def findMagic (data : List UInt8) (start : Nat) : Option Nat :=
  if data.length ≤ start then none
  else if data.length < magic.length then none
  else findMagicFrom data (data.length - magic.length) data.length start

/-- Where the candidate ends, if its header does not rule it out. -/
def candidateEnd (data : List UInt8) (position : Nat) (limits : ScanLimits) : Except Par3Error Nat :=
  let rest := data.length - position
  if rest < headerSize then .error (.packetTooShort position headerSize rest)
  else
    let length := leNat ((data.drop (position + 24)).take 8)
    if length < headerSize then .error (.packetTooShort position headerSize length)
    else if limits.maxPacketLen < length then
      .error (.scanLimitExceeded
        s!"packet at offset {position} claims {length} bytes, over the {limits.maxPacketLen} byte limit")
    else if position + length ≤ data.length then .ok (position + length)
    else .error (.packetTooShort position length rest)

/-- What is known of each input set. -/
abbrev Contexts := InputSetId → Option ParseContext

def parseCandidate (fingerprint : Hash) (data : List UInt8) (position «end» : Nat) (contexts : Contexts) : Except Par3Error Packet :=
  let setId : InputSetId := array 8 data (position + 32)
  let context := (contexts setId).getD .new
  Packet.parse fingerprint ((data.drop position).take («end» - position)) position context

/-- A packet read before the Start packet of its set is read again. -/
def resolveDeferred (fingerprint : Hash) (contexts : Contexts) (packet : Packet) : Packet :=
  match packet.body with
  | .opaqueBody packetType body =>
    if PacketBody.needsContext packetType then
      match contexts packet.inputSetId with
      | none => packet
      | some context =>
        match PacketBody.parse packetType body context with
        | .ok parsed => .new fingerprint packet.inputSetId parsed
        | .error _ => packet
    else packet
  | _ => packet

structure ScanState where
  found : List (Nat × Packet)
  retainedBytes : Nat
  contexts : Contexts
  failedHashBytes : Nat
  offset : Nat

namespace ScanState

def initial : ScanState := ⟨[], 0, fun _ => none, 0, 0⟩

/-- A Start packet says how the packets of its set are read. -/
def learn (contexts : Contexts) (packet : Packet) : Contexts :=
  match packet.body with
  | .start start => Function.update contexts packet.inputSetId (some (.fromStart start))
  | _ => contexts

/-- A candidate that is a packet. -/
def keep (limits : ScanLimits) (state : ScanState) (position : Nat) (packet : Packet) : Except Par3Error ScanState :=
  if limits.maxPackets ≤ state.found.length then .error (.scanLimitExceeded s!"more than {limits.maxPackets} packets")
  else
    let retainedBytes := saturatingAdd state.retainedBytes packet.length
    if limits.maxRetainedBytes < retainedBytes then
      .error (.scanLimitExceeded s!"more than {limits.maxRetainedBytes} retained bytes")
    else
      .ok { state with
        found := state.found ++ [(position, packet)]
        retainedBytes := retainedBytes
        contexts := learn state.contexts packet
        offset := position + packet.length }

/-- A candidate that was hashed for nothing. -/
def reject (limits : ScanLimits) (length : Nat) (state : ScanState) (position «end» : Nat) : Except Par3Error ScanState :=
  let failedHashBytes := saturatingAdd state.failedHashBytes («end» - position)
  if saturatingMul length limits.maxFailedHashPasses < failedHashBytes then
    .error (.scanLimitExceeded
      s!"candidate packets that did not check out were hashed more than {limits.maxFailedHashPasses} times over the input")
  else .ok { state with failedHashBytes := failedHashBytes, offset := position + 8 }

/-- One candidate. -/
def step (fingerprint : Hash) (limits : ScanLimits) (data : List UInt8) (state : ScanState) (position : Nat) :
    Except Par3Error ScanState :=
  match candidateEnd data position limits with
  | .error _ => .ok { state with offset := position + 8 }
  | .ok «end» =>
    match parseCandidate fingerprint data position «end» state.contexts with
    | .ok packet => state.keep limits position packet
    | .error _ => state.reject limits data.length position «end»

/-- The candidates from the offset on. Each one moves the offset, so the length of the data is enough fuel. -/
def run (fingerprint : Hash) (limits : ScanLimits) (data : List UInt8) : Nat → ScanState → Except Par3Error ScanState
  | 0, state => .ok state
  | fuel + 1, state =>
    match findMagic data state.offset with
    | none => .ok state
    | some position =>
      match state.step fingerprint limits data position with
      | .ok state => run fingerprint limits data fuel state
      | .error e => .error e

end ScanState

def scanPacketsWithLimits (fingerprint : Hash) (data : List UInt8) (limits : ScanLimits) : Except Par3Error (List (Nat × Packet)) :=
  match ScanState.initial.run fingerprint limits data data.length with
  | .ok state => .ok (state.found.map fun found => (found.1, resolveDeferred fingerprint state.contexts found.2))
  | .error e => .error e

def scanPackets (fingerprint : Hash) (data : List UInt8) : Except Par3Error (List (Nat × Packet)) :=
  scanPacketsWithLimits fingerprint data .default

/-! ### Candidates -/

/-- The header of the hash-valid packet at this place, if one within the length limit stands there. -/
def packetAt (fingerprint : Hash) (maxPacketLen : Nat) (data : List UInt8) (position : Nat) : Option PacketHeader :=
  match PacketHeader.parse (data.drop position) position with
  | .error _ => none
  | .ok header =>
    if header.length ≤ maxPacketLen ∧ position + header.length ≤ data.length ∧
        fingerprint (((data.drop position).take header.length).drop hashedFrom) = header.hash then some header
    else none

variable {data : List UInt8} {position : Nat}

theorem magic_ne_nil : magic ≠ [] := nofun

theorem occursAt_iff_isPrefixOf : occursAt magic data position = magic.isPrefixOf (data.drop position) := by
  rw [Bool.eq_iff_iff, isPrefixOf_iff_prefix, prefix_iff_eq_take]
  exact decide_eq_true_iff.trans eq_comm

/-- The magic sequence starts with its first byte. -/
theorem occursAt_first (occurs : occursAt magic data position = true) : data[position]? = some 80 := by
  rw [occursAt_iff_isPrefixOf, isPrefixOf_iff_prefix] at occurs
  obtain ⟨rest, same⟩ := occurs
  have first := congrArg (·[0]?) same
  simpa [magic] using first.symm

theorem findMagicFrom_eq {lastStart : Nat} (last : lastStart + magic.length = data.length) :
    ∀ {fuel index : Nat}, data.length ≤ index + fuel → findMagicFrom data lastStart fuel index = firstFrom magic data index := by
  have size : magic.length = 8 := rfl
  intro fuel
  induction fuel with
  | zero =>
    intro index enough
    exact (firstFrom_short magic_ne_nil (by omega)).symm
  | succ fuel ih =>
    intro index enough
    unfold findMagicFrom
    split_ifs with inside
    · split
      · -- no first byte is left before the last start
        rename_i free
        refine ((firstFrom_eq_none_iff magic_ne_nil).mpr fun j low => ?_).symm
        by_contra occurs
        have occurs := Bool.of_not_eq_false occurs
        have fits := occursAt_length occurs magic_ne_nil
        have first := occursAt_first occurs
        have member : (80 : UInt8) ∈ (data.drop index).take (lastStart + 1 - index) := by
          refine mem_of_getElem? (i := j - index) ?_
          rw [getElem?_take_of_lt (by omega), getElem?_drop, Nat.add_sub_cancel' low, first]
        have none := findIdx?_eq_none_iff.mp free 80 member
        exact Bool.false_ne_true (none.symm.trans (beq_self_eq_true _))
      · rename_i step found
        obtain ⟨bound, here, before⟩ := findIdx?_eq_some_iff_getElem.mp found
        rw [length_take, length_drop] at bound
        have skipped : ∀ j, index ≤ j → j < index + step → occursAt magic data j = false := by
          intro j low high
          by_contra occurs
          have first := occursAt_first (Bool.of_not_eq_false occurs)
          have other := before (j - index) (by omega)
          rw [getElem_take, getElem_drop] at other
          simp only [Nat.add_sub_cancel' low] at other
          rw [getElem?_eq_getElem (by omega)] at first
          rw [Option.some.inj first] at other
          exact other rfl
        dsimp only
        rw [firstFrom_skip magic_ne_nil (Nat.le_add_right index step) skipped]
        split_ifs with occurs
        · rw [← occursAt_iff_isPrefixOf] at occurs
          exact (firstFrom_self magic_ne_nil occurs).symm
        · rw [← occursAt_iff_isPrefixOf] at occurs
          rw [firstFrom_succ magic_ne_nil (Bool.eq_false_iff.mpr occurs), ih (by omega)]
    · exact (firstFrom_short magic_ne_nil (by omega)).symm

/-- `find_magic` finds the next place the magic sequence stands at. -/
theorem findMagic_eq (data : List UInt8) (start : Nat) : findMagic data start = firstFrom magic data start := by
  have none (short : data.length < start + magic.length) := firstFrom_short magic_ne_nil short
  unfold findMagic
  split
  · rename_i outside
    have size : magic.length = 8 := rfl
    exact (none (by omega)).symm
  split
  · exact (none (by omega)).symm
  · exact findMagicFrom_eq (by omega) (by omega)

/-! ### One candidate -/

variable {fingerprint : Hash} {limits : ScanLimits} {header : PacketHeader} {contexts : Contexts} {packet : Packet}

theorem packetAt_eq_some_iff {maxPacketLen : Nat} : packetAt fingerprint maxPacketLen data position = some header ↔
    parse (data.drop position) position = .ok header ∧ header.length ≤ maxPacketLen ∧
    position + header.length ≤ data.length ∧
    fingerprint (((data.drop position).take header.length).drop hashedFrom) = header.hash := by
  unfold packetAt
  grind

theorem candidateEnd_eq_ok {stop : Nat} : candidateEnd data position limits = .ok stop ↔
    headerSize ≤ (data.drop position).length ∧ headerSize ≤ leNat (((data.drop position).drop 24).take 8) ∧
    leNat (((data.drop position).drop 24).take 8) ≤ limits.maxPacketLen ∧ stop ≤ data.length ∧
    position + leNat (((data.drop position).drop 24).take 8) = stop := by
  unfold candidateEnd
  rw [length_drop, drop_drop]
  dsimp only
  generalize leNat _ = length
  split
  · exact ⟨nofun, by omega⟩
  split
  · exact ⟨nofun, by omega⟩
  split
  · exact ⟨nofun, by omega⟩
  split
  · rw [Except.ok.injEq]
    omega
  · exact ⟨nofun, by omega⟩

/-- A hash-valid packet is kept, whatever is known of its set. -/
theorem candidate_of_packetAt (contexts : Contexts) (packet : packetAt fingerprint limits.maxPacketLen data position = some header) :
    candidateEnd data position limits = .ok (position + header.length) ∧
    ∃ packet, parseCandidate fingerprint data position (position + header.length) contexts = .ok packet ∧ packet.header = header ∧
      Packet.Sound fingerprint packet ∧ packet.toBytes = (data.drop position).take header.length := by
  obtain ⟨parsed, within, inside, hashed⟩ := packetAt_eq_some_iff.mp packet
  obtain ⟨long, -, size, shape⟩ := parse_eq_ok.mp parsed
  have length : leNat (((data.drop position).drop 24).take 8) = header.length := by rw [shape]
  have taken : ((data.drop position).take header.length).length = header.length :=
    length_take_of_le (by rw [length_drop]; omega)
  refine ⟨candidateEnd_eq_ok.mpr ⟨long, size, by omega, inside, by omega⟩, ?_⟩
  rw [length] at size
  have headed : parse _ position = .ok header :=
    (parse_take size _).mpr parsed
  have retaken : ((data.drop position).take header.length).take header.length = (data.drop position).take header.length := by
    rw [take_take, Nat.min_self]
  rw [← retaken] at hashed
  obtain ⟨packet, accepted, same⟩ := Packet.parse_ok headed (Nat.le_of_eq taken.symm) hashed _
  refine ⟨packet, ?_, same, Packet.sound_parse accepted, ?_⟩
  · unfold parseCandidate
    rw [Nat.add_sub_cancel_left]
    exact accepted
  · have length' : packet.length = header.length := congrArg PacketHeader.length same
    rw [Packet.toBytes_parse_take accepted, length', retaken]

/-- Nothing else is. -/
theorem packetAt_of_candidate {stop : Nat} (ends : candidateEnd data position limits = .ok stop)
    (parsed : parseCandidate fingerprint data position stop contexts = .ok packet) :
    packetAt fingerprint limits.maxPacketLen data position = some packet.header := by
  obtain ⟨long, size, within, inside, rfl⟩ := candidateEnd_eq_ok.mp ends
  unfold parseCandidate at parsed
  rw [Nat.add_sub_cancel_left] at parsed
  obtain ⟨header, headed, -, hashed, id, hash, length, typed, -⟩ := Packet.parse_eq_ok parsed
  have headed := (parse_take size position).mp headed
  obtain ⟨-, -, -, shape⟩ := parse_eq_ok.mp headed
  have length' : leNat (((data.drop position).drop 24).take 8) = header.length := by rw [shape]
  have same : packet.header = header := by
    unfold Packet.header
    rw [id, hash, length, typed]
  rw [length', take_take, Nat.min_self] at hashed
  rw [same]
  exact packetAt_eq_some_iff.mpr ⟨headed, by omega, by omega, hashed⟩

/-! ### The whole scan -/

namespace ScanState
variable {state after : ScanState}

/-- What keeping a packet changes. -/
structure Kept (limits : ScanLimits) (state : ScanState) (position : Nat) (packet : Packet) (after : ScanState) : Prop where
  found : after.found = state.found ++ [(position, packet)]
  contexts : after.contexts = learn state.contexts packet
  offset : after.offset = position + packet.length

theorem keep_eq_ok (kept : state.keep limits position packet = .ok after) :
    Kept limits state position packet after := by
  unfold keep at kept
  split_ifs at kept
  dsimp only at kept
  split_ifs at kept
  · cases kept
    exact ⟨rfl, rfl, rfl⟩

/-- A packet within the limits is kept. -/
theorem keep_ok (position : Nat) (room : state.found.length < limits.maxPackets)
    (fits : state.retainedBytes + packet.length ≤ limits.maxRetainedBytes) :
    ∃ after, state.keep limits position packet = .ok after ∧ after.retainedBytes ≤ state.retainedBytes + packet.length := by
  have less : saturatingAdd state.retainedBytes packet.length ≤ state.retainedBytes + packet.length := Nat.min_le_left _ _
  unfold keep
  rw [if_neg (by omega)]
  rw [if_neg (by omega)]
  exact ⟨_, rfl, less⟩

theorem reject_eq_ok {length stop : Nat} (rejected : state.reject limits length position stop = .ok after) :
    ∃ failed, after = { state with failedHashBytes := failed, offset := position + 8 } := by
  unfold reject at rejected
  dsimp only at rejected
  split_ifs at rejected
  · cases rejected
    exact ⟨_, rfl⟩

/-- A candidate that is a packet is kept. -/
theorem step_packet (state : ScanState) (valid : packetAt fingerprint limits.maxPacketLen data position = some header) :
    ∃ packet, state.step fingerprint limits data position = state.keep limits position packet ∧ packet.header = header ∧
      Packet.Sound fingerprint packet ∧ packet.toBytes = (data.drop position).take header.length := by
  obtain ⟨ends, packet, parsed, facts⟩ := candidate_of_packetAt state.contexts valid
  refine ⟨packet, ?_, facts⟩
  unfold step
  rw [ends]
  dsimp only
  rw [parsed]

/-- Any other candidate is stepped over. -/
theorem step_other (invalid : packetAt fingerprint limits.maxPacketLen data position = none)
    (stepped : state.step fingerprint limits data position = .ok after) :
    ∃ failed, after = { state with failedHashBytes := failed, offset := position + 8 } := by
  unfold step at stepped
  split at stepped
  · cases stepped
    exact ⟨_, rfl⟩
  rename_i stop ends
  split at stepped
  · rename_i packet parsed
    exact absurd (invalid.symm.trans (packetAt_of_candidate ends parsed)) nofun
  · exact reject_eq_ok stepped

end ScanState

end Rarpar.Par3

import Rarpar.Par3.AuthenticatingWriter
import Rarpar.Par3.ScanRoundTrip

namespace Rarpar.Par3
open Bytes List Nat PacketHeader

/-! One round of the writer's loop, from one standing between the packets to the next. -/

namespace AuthenticatingWriter
variable {fingerprint : Hash} {options : WriterOptions}

/-- Whether these bytes are a packet that is retained, and the hash it claims. -/
def metadataHash (bytes : List UInt8) : Option Fingerprint :=
  match PacketHeader.parse bytes 0 with
  | .error _ => none
  | .ok header => if prefixLen header.packetType = 0 then some header.hash else none

/-- What is proven once these packets are closed. -/
def claimedAfter (known : List (List UInt8)) (done : List (List UInt8)) : Claims :=
  done.foldl (fun claimed bytes => (metadataHash bytes).elim claimed (prove known claimed · bytes)) (claims known)

theorem claimedAfter_append (known done : List (List UInt8)) (bytes : List UInt8) : claimedAfter known (done ++ [bytes]) =
    (metadataHash bytes).elim (claimedAfter known done) (prove known (claimedAfter known done) · bytes) := by
  unfold claimedAfter
  rw [foldl_append]
  rfl

/-- The start of a packet is one that the writer goes on with. -/
structure Opens (options : WriterOptions) (done : List (List UInt8)) (pending : List UInt8) (header : PacketHeader) : Prop where
  parsed : PacketHeader.parse pending 0 = .ok header
  id : header.inputSetId = options.id
  within : header.length ≤ options.limits.maxPacketLen
  long : headerSize + prefixLen header.packetType ≤ header.length
  copied : ∀ index, copyIndex (claimedAfter options.known done) header = some index →
    (options.known.getD index []).length = header.length ∧ (options.known.getD index []).take pending.length = pending
  retained : copyIndex (claimedAfter options.known done) header = none → prefixLen header.packetType = 0 →
    header.length + packetOverheadBytes ≤ options.retentionCeiling

/-- What the writer knows of an open packet. -/
def openState (known done : List (List UInt8)) (pending : List UInt8) (header : PacketHeader) : WrittenPacket :=
  match copyIndex (claimedAfter known done) header with
  | some index => ⟨header, done.flatten.length, pending.length, [], none, some index⟩
  | none =>
    ⟨header, done.flatten.length, pending.length, pending.drop hashedFrom,
      if prefixLen header.packetType = 0 then some pending else none, none⟩

/-- The writer stands behind these packets and this start of the next one. -/
structure Stands (options : WriterOptions) (done : List (List UInt8)) (pending : List UInt8) (writer : AuthenticatingWriter) : Prop where
  packets : writer.packets = done.length
  nextPacket : writer.nextPacket = done.flatten.length
  claimed : writer.claimed = claimedAfter options.known done
  header : pending.length < headerSize → writer.header = pending ∧ writer.packet = none
  packet : headerSize ≤ pending.length → writer.header = [] ∧ ∃ header, Opens options done pending header ∧
    pending.length < header.length ∧ writer.packet = some (openState options.known done pending header)

/-- The packet that is complete can be closed. -/
structure Closes (fingerprint : Hash) (options : WriterOptions) (done : List (List UInt8)) (bytes : List UInt8) (header : PacketHeader) :
    Prop where
  opens : Opens options done bytes header
  length : header.length = bytes.length
  hash : copyIndex (claimedAfter options.known done) header = none → fingerprint (bytes.drop hashedFrom) = header.hash
  room : done.length < options.limits.maxPackets

/-- Packets the writer closes one behind the other. -/
inductive Closed (fingerprint : Hash) (options : WriterOptions) : List (List UInt8) → Prop
  | nil : Closed fingerprint options []
  | snoc {done : List (List UInt8)} {bytes : List UInt8} {header : PacketHeader} (before : Closed fingerprint options done)
      (closes : Closes fingerprint options done bytes header) : Closed fingerprint options (done ++ [bytes])

/-- What is counted outside the packets. -/
def account (writer : AuthenticatingWriter) : Nat × List UInt8 := (writer.written, writer.inner)

/-- What a round of the loop makes of the bytes it takes: more of the pending packet, or the packet is complete. -/
inductive Moves (fingerprint : Hash) (options : WriterOptions) (done : List (List UInt8)) (pending : List UInt8) :
    AuthenticatingWriter → Prop
  | stays {writer : AuthenticatingWriter} (stands : Stands options done pending writer) : Moves fingerprint options done pending writer
  | closes {writer : AuthenticatingWriter} {header : PacketHeader} (closes : Closes fingerprint options done pending header)
      (stands : Stands options (done ++ [pending]) [] writer) : Moves fingerprint options done pending writer

/-! ### Closing a packet -/

variable {done : List (List UInt8)} {pending : List UInt8} {header : PacketHeader} {writer after : AuthenticatingWriter}

theorem copyIndex_eq_some {claimed : Claims} {index : Nat} (copy : copyIndex claimed header = some index) :
    prefixLen header.packetType = 0 ∧ claimed header.hash = some (index, true) := by
  unfold copyIndex at copy
  split at copy
  · grind
  · cases copy

theorem metadataHash_of_parse (parsed : parse pending 0 = .ok header) :
    metadataHash pending = if prefixLen header.packetType = 0 then some header.hash else none := by
  unfold metadataHash
  rw [parsed]

/-- The writer once these packets are closed. -/
def behind (known : List (List UInt8)) (done : List (List UInt8)) (writer : AuthenticatingWriter) : AuthenticatingWriter :=
  { writer with packet := none, packets := done.length, nextPacket := done.flatten.length, claimed := claimedAfter known done }

theorem stands_behind (empty : writer.header = []) : Stands options done [] (behind options.known done writer) where
  packets := rfl
  nextPacket := rfl
  claimed := rfl
  header := fun _ => ⟨empty, rfl⟩
  packet := fun long => absurd long (by decide)

/-- An open packet that is complete is closed if it closes, and only then. -/
theorem closePacket_eq_ok_iff (opens : Opens options done pending header) (packets : writer.packets = done.length)
    (claimed : writer.claimed = claimedAfter options.known done) (length : header.length = pending.length) :
    closePacket fingerprint options writer (openState options.known done pending header) = .ok () after ↔
      Closes fingerprint options done pending header ∧ behind options.known (done ++ [pending]) writer = after := by
  have place : (done ++ [pending]).flatten.length = done.flatten.length + header.length := by
    rw [flatten_append, length_append, flatten_singleton, length]
  have count : (done ++ [pending]).length = done.length + 1 := by
    rw [length_append]
    rfl
  have learned := claimedAfter_append options.known done pending
  rw [metadataHash_of_parse opens.parsed] at learned
  unfold closePacket openState behind
  rw [place, count, packets, claimed]
  rcases copy : copyIndex _ header with _ | index
  · dsimp only
    by_cases hashed : fingerprint (pending.drop hashedFrom) = header.hash
    · rw [if_neg fun bad => bad.2 hashed]
      by_cases room : options.limits.maxPackets ≤ done.length
      · rw [if_pos room]
        exact ⟨nofun, fun closed => absurd closed.1.room (not_lt.mpr room)⟩
      · have closes : Closes fingerprint options done pending header := ⟨opens, length, fun _ => hashed, Nat.lt_of_not_le room⟩
        rw [if_neg room]
        by_cases metadata : prefixLen header.packetType = 0
        · have parsed : parse pending done.flatten.length = .ok header :=
            parse_eq_ok.mpr (parse_eq_ok.mp opens.parsed)
          obtain ⟨packet, accepted, -⟩ := Packet.parse_ok parsed (le_of_eq length)
            (show fingerprint _ = header.hash by rw [length, take_length, hashed]) .new
          rw [if_pos metadata, Option.elim_some] at learned
          rw [if_pos metadata, learned]
          dsimp only
          rw [accepted]
          exact ⟨fun ok => ⟨closes, (EStateM.Result.ok.inj ok).2⟩, fun closed => congrArg _ closed.2⟩
        · grind
    · rw [if_pos ⟨rfl, hashed⟩]
      exact ⟨nofun, fun closed => absurd (closed.1.hash copy) hashed⟩
  · -- a copy was compared as it came, and what it proves is proven already
    obtain ⟨metadata, proven⟩ := copyIndex_eq_some copy
    have same : prove options.known (claimedAfter options.known done) header.hash pending = claimedAfter options.known done := by
      unfold prove
      rw [proven]
    rw [if_pos metadata, Option.elim_some, same] at learned
    rw [learned, if_neg fun bad => nomatch bad.1]
    by_cases room : options.limits.maxPackets ≤ done.length
    · rw [if_pos room]
      exact ⟨nofun, fun closed => absurd closed.1.room (not_lt.mpr room)⟩
    · have closes : Closes fingerprint options done pending header :=
        ⟨opens, length, fun none => absurd (copy.symm.trans none) nofun, Nat.lt_of_not_le room⟩
      rw [if_neg room]
      exact ⟨fun ok => ⟨closes, (EStateM.Result.ok.inj ok).2⟩, fun closed => congrArg _ closed.2⟩

/-! ### One round of the loop -/

/-- Bytes of the next packet the writer goes on with. -/
def Viable (fingerprint : Hash) (options : WriterOptions) (done : List (List UInt8)) (pending : List UInt8) : Prop :=
  pending.length < headerSize ∨ ∃ header, Opens options done pending header ∧ pending.length ≤ header.length ∧
    (header.length = pending.length → Closes fingerprint options done pending header)

/-- The writer between two packets. -/
structure Between (options : WriterOptions) (done : List (List UInt8)) (writer : AuthenticatingWriter) : Prop where
  packets : writer.packets = done.length
  nextPacket : writer.nextPacket = done.flatten.length
  claimed : writer.claimed = claimedAfter options.known done
  header : writer.header = []

/-- What is done with a packet that has grown: it is closed once it is complete. -/
def settle (fingerprint : Hash) (options : WriterOptions) (writer : AuthenticatingWriter) (packet : WrittenPacket) : Outcome :=
  if packet.consumed = packet.header.length then closePacket fingerprint options writer packet
  else .ok () { writer with packet := some packet }

theorem openState_consumed (known : List (List UInt8)) : (openState known done pending header).consumed = pending.length := by
  unfold openState
  split <;> rfl

theorem openState_header (known : List (List UInt8)) : (openState known done pending header).header = header := by
  unfold openState
  split <;> rfl

/-- The answer to a packet that has come this far: the writer moves on, and it fails only for want of budget or on bytes
that it cannot go on with. -/
def Answers (fingerprint : Hash) (options : WriterOptions) (done : List (List UInt8)) (pending : List UInt8) (writer : AuthenticatingWriter) :
    Outcome → Prop
  | .ok () after => Moves fingerprint options done pending after ∧ after.account = writer.account
  | .error _ _ => (∀ call bytes, options.reserve call bytes = true) → ¬ Viable fingerprint options done pending

theorem Answers.ok {outcome : Outcome} (answers : Answers fingerprint options done pending writer outcome)
    (granted : ∀ call bytes, options.reserve call bytes = true) (viable : Viable fingerprint options done pending) :
    ∃ after, outcome = .ok () after ∧ Moves fingerprint options done pending after := by
  cases outcome with
  | ok _ after => exact ⟨after, rfl, answers.1⟩
  | error => exact absurd viable (answers granted)

theorem Viable.opens (viable : Viable fingerprint options done pending) (parsed : parse pending 0 = .ok header) :
    Opens options done pending header ∧ (header.length = pending.length → Closes fingerprint options done pending header) := by
  have long := (parse_eq_ok.mp parsed).1
  rcases viable with short | ⟨header', opens, -, closes⟩
  · omega
  · obtain rfl := Except.ok.inj (opens.parsed.symm.trans parsed)
    exact ⟨opens, closes⟩

theorem answers_error {e : EngineError} {left : AuthenticatingWriter} (parsed : parse pending 0 = .ok header)
    (bad : (∀ call bytes, options.reserve call bytes = true) → ¬ Opens options done pending header) :
    Answers fingerprint options done pending writer (.error e left) :=
  fun granted viable => bad granted (viable.opens parsed).1

theorem settle_answers (between : Between options done writer) (opens : Opens options done pending header)
    (fits : pending.length ≤ header.length) :
    Answers fingerprint options done pending writer (settle fingerprint options writer (openState options.known done pending header)) := by
  have long := (parse_eq_ok.mp opens.parsed).1
  unfold settle
  rw [openState_consumed, openState_header]
  split_ifs with complete
  · have closing (after) := @closePacket_eq_ok_iff fingerprint _ _ _ _ _ after opens between.packets between.claimed complete.symm
    cases closed : closePacket fingerprint options writer _ with
    | ok _ after =>
      obtain ⟨closes, rfl⟩ := (closing after).mp closed
      exact ⟨.closes closes (stands_behind between.header), rfl⟩
    | error =>
      intro _ viable
      cases closed.symm.trans ((closing _).mpr ⟨(viable.opens opens.parsed).2 complete.symm, rfl⟩)
  · refine ⟨.stays ⟨between.packets, between.nextPacket, between.claimed, ?_, ?_⟩, rfl⟩
    · omega
    · intro _
      exact ⟨between.header, header, opens, lt_of_le_of_ne fits complete, rfl⟩

theorem startPacket_eq_settle {packet : WrittenPacket} (fresh : packet.consumed = headerSize) :
    startPacket fingerprint options writer packet = settle fingerprint options writer packet := by
  unfold startPacket settle
  rw [fresh]
  exact if_congr eq_comm rfl rfl

/-- A header that is complete opens a packet. -/
theorem openPacket_answers (between : Between options done writer) (length : pending.length = headerSize) :
    Answers fingerprint options done pending writer (openPacket fingerprint options writer pending) := by
  unfold openPacket
  dsimp only
  rw [between.claimed, between.nextPacket]
  split
  · rename_i failed
    rintro - (short | ⟨header, opens, -⟩)
    · omega
    · cases failed.symm.trans (parse_eq_ok.mpr (parse_eq_ok.mp opens.parsed))
  rename_i header parsed
  have parsed : parse pending 0 = .ok header := parse_eq_ok.mpr (parse_eq_ok.mp parsed)
  split
  · rename_i bad
    exact answers_error parsed fun _ opens => bad ⟨opens.within, opens.id⟩
  rename_i accepted
  split
  · rename_i short
    exact answers_error parsed fun _ opens => absurd opens.long (not_le.mpr short)
  rename_i long
  have long := not_lt.mp long
  obtain ⟨within, id⟩ := not_not.mp accepted
  have fits : pending.length ≤ header.length := by
    omega
  have settled (reservations) (copied) (retained) := @settle_answers fingerprint options done pending header
    { writer with reservations := reservations } ⟨between.packets, between.nextPacket, between.claimed, between.header⟩
    ⟨parsed, id, within, long, copied, retained⟩ fits
  unfold openState at settled
  rw [length] at settled
  split
  · rename_i index copy
    rw [copy] at settled
    split_ifs with differs
    · refine answers_error parsed fun _ opens => differs.elim (· (opens.copied index copy).1) fun start => start ?_
      rw [← length]
      exact (opens.copied index copy).2
    · rw [startPacket_eq_settle rfl]
      refine settled writer.reservations ?_ ?_
      · grind
      · grind
  · rename_i fresh
    rw [fresh] at settled
    split
    · rename_i metadata
      rw [if_pos metadata] at settled
      unfold retain
      dsimp only
      by_cases cheap : header.length + packetOverheadBytes ≤ options.retentionCeiling
      · rw [if_neg (not_lt.mpr cheap)]
        by_cases granted : options.reserve writer.reservations ((header.length + packetOverheadBytes) * 2) = true
        · rw [if_pos granted]
          dsimp only
          rw [startPacket_eq_settle rfl]
          exact settled _ (by simp) fun _ _ => cheap
        · rw [if_neg granted]
          exact answers_error parsed fun all => absurd (all _ _) granted
      · rw [if_pos (not_le.mp cheap)]
        exact answers_error parsed fun _ opens => cheap (opens.retained fresh metadata)
    · rename_i payload
      rw [if_neg payload] at settled
      rw [startPacket_eq_settle rfl]
      exact settled _ (by simp) fun _ metadata => absurd metadata payload

/-- A longer start has the same header. -/
theorem parse_append (long : headerSize ≤ pending.length) (more : List UInt8) :
    parse (pending ++ more) 0 = .ok header ↔ parse pending 0 = .ok header := by
  have same : parse ((pending ++ more).take pending.length) 0 = .ok header ↔
      parse (pending ++ more) 0 = .ok header := parse_take long 0
  rw [take_left] at same
  exact same.symm

/-- A start of a packet opens if the packet does. -/
theorem Opens.shorter {more : List UInt8} (opens : Opens options done (pending ++ more) header) (long : headerSize ≤ pending.length) :
    Opens options done pending header where
  parsed := (parse_append long more).mp opens.parsed
  id := opens.id
  within := opens.within
  long := opens.long
  copied := by
    intro index copy
    obtain ⟨same, start⟩ := opens.copied index copy
    refine ⟨same, ?_⟩
    have cut := congrArg (take pending.length) start
    rw [take_take, length_append, min_eq_left (le_add_right _ _), take_left] at cut
    exact cut
  retained := opens.retained

/-- More bytes for an open packet. -/
theorem fillPacket_openState (long : headerSize ≤ pending.length) (bytes : List UInt8) :
    fillPacket fingerprint options writer (openState options.known done pending header) bytes =
      (min (header.length - pending.length) bytes.length,
        let taken := bytes.take (min (header.length - pending.length) bytes.length)
        let grown := settle fingerprint options writer (openState options.known done (pending ++ taken) header)
        match copyIndex (claimedAfter options.known done) header with
        | some index =>
          if taken ≠ ((options.known.getD index []).drop pending.length).take taken.length then .error unauthenticated writer else grown
        | none => grown) := by
  have hashed : hashedFrom ≤ pending.length := le_trans (by decide) long
  unfold fillPacket openState settle
  rcases copy : copyIndex _ header with _ | index
  · grind
  · grind

/-- A round takes at least one byte and nothing behind the packet. -/
structure Takes (pending bytes : List UInt8) (take : Nat) : Prop where
  positive : 0 < take
  inside : take ≤ bytes.length
  header : pending.length < headerSize → pending.length + take ≤ headerSize
  packet : headerSize ≤ pending.length → ∀ header, PacketHeader.parse pending 0 = .ok header → pending.length + take ≤ header.length

variable {bytes : List UInt8}

theorem feed_takes (fingerprint : Hash) (stands : Stands options done pending writer) (nonempty : bytes ≠ []) :
    Takes pending bytes (feed fingerprint options writer bytes).1 := by
  have some := length_pos_iff.mpr nonempty
  unfold feed
  rcases lt_or_ge pending.length headerSize with short | long
  · obtain ⟨filled, none⟩ := stands.header short
    rw [none]
    show Takes pending bytes (min (headerSize - writer.header.length) bytes.length)
    rw [filled]
    exact ⟨by omega, by omega, fun _ => by omega, fun long => absurd long (not_le.mpr short)⟩
  · obtain ⟨-, header, opens, incomplete, packet⟩ := stands.packet long
    rw [packet]
    show Takes pending bytes (min ((openState options.known done pending header).header.length -
      (openState options.known done pending header).consumed) bytes.length)
    rw [openState_header, openState_consumed]
    refine ⟨by omega, by omega, fun short => absurd long (not_le.mpr short), fun _ header' parsed => ?_⟩
    obtain rfl := Except.ok.inj (opens.parsed.symm.trans parsed)
    omega

/-- One round of the loop, from one standing to the next. -/
theorem feed_answers (fingerprint : Hash) (stands : Stands options done pending writer) (bytes : List UInt8) :
    Answers fingerprint options done (pending ++ bytes.take (feed fingerprint options writer bytes).1) writer
      (feed fingerprint options writer bytes).2 := by
  unfold feed
  rcases lt_or_ge pending.length headerSize with short | long
  · obtain ⟨filled, none⟩ := stands.header short
    rw [none]
    unfold fillHeader
    dsimp only
    rw [filled]
    have fits : (pending ++ bytes.take (min (headerSize - pending.length) bytes.length)).length ≤ headerSize := by
      grind
    generalize pending ++ bytes.take _ = next at fits ⊢
    split_ifs with complete
    · exact @openPacket_answers _ _ _ _ { writer with header := [] } ⟨stands.packets, stands.nextPacket, stands.claimed, rfl⟩ complete
    · refine ⟨.stays ⟨stands.packets, stands.nextPacket, stands.claimed, fun _ => ⟨rfl, none⟩, fun long => ?_⟩, rfl⟩
      exact absurd (le_antisymm fits long) complete
  · obtain ⟨empty, header, opens, incomplete, packet⟩ := stands.packet long
    rw [packet]
    dsimp only
    rw [fillPacket_openState long]
    dsimp only
    have fits : (pending ++ bytes.take (min (header.length - pending.length) bytes.length)).length ≤ header.length := by
      grind
    generalize bytes.take _ = taken at fits ⊢
    have parsed := (parse_append long taken).mpr opens.parsed
    have settled (copied) := @settle_answers fingerprint options done (pending ++ taken) header writer
      ⟨stands.packets, stands.nextPacket, stands.claimed, empty⟩ ⟨parsed, opens.id, opens.within, opens.long, copied, opens.retained⟩ fits
    split
    · rename_i index copy
      obtain ⟨same, start⟩ := opens.copied index copy
      split_ifs with differs
      · refine answers_error parsed fun _ opens => differs ?_
        have start' := (opens.copied index copy).2
        rw [length_append, take_add, start] at start'
        exact (append_cancel_left start').symm
      · refine settled fun index' copy' => ?_
        obtain rfl := Option.some.inj (copy.symm.trans copy')
        rw [length_append, take_add, start, ← not_not.mp differs]
        exact ⟨same, rfl⟩
    · rename_i fresh
      exact settled (by simp [fresh])

end AuthenticatingWriter
end Rarpar.Par3

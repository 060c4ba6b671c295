import Rarpar.Par3.AuthenticatedCalls

namespace Rarpar.Par3
open Bytes List Option

/-! What the writer accepts, in terms of the packets of a carrier. -/

/-- A hash-valid packet of the set, within the length limit and long enough for what stands before its payload. -/
structure CarrierPacket (fingerprint : Hash) (options : WriterOptions) (bytes : List UInt8) (header : PacketHeader) : Prop where
  parsed : PacketHeader.parse bytes 0 = .ok header
  length : header.length = bytes.length
  hash : fingerprint (bytes.drop hashedFrom) = header.hash
  id : header.inputSetId = options.id
  within : header.length ≤ options.limits.maxPacketLen
  long : headerSize + prefixLen header.packetType ≤ header.length

/-- A packet a carrier may hold: a valid one that is not too large to be retained if it is metadata. -/
def Carried (fingerprint : Hash) (options : WriterOptions) (bytes : List UInt8) : Prop :=
  ∃ header, CarrierPacket fingerprint options bytes header ∧
    (prefixLen header.packetType = 0 → header.length + packetOverheadBytes ≤ options.retentionCeiling)

namespace AuthenticatingWriter
variable {fingerprint : Hash} {options : WriterOptions} {done : List (List UInt8)} {bytes : List UInt8} {header : PacketHeader}

/-- The known packet that stands for a hash. -/
def firstKnown (known : List (List UInt8)) (hash : Fingerprint) : Option (List UInt8) :=
  known.find? fun packet => 24 ≤ packet.length ∧ array 16 packet 8 = hash

/-- No metadata packet follows another one that stands for its hash. -/
def Unambiguous (known packets : List (List UInt8)) : Prop :=
  packets.Pairwise fun earlier later => ∀ hash, metadataHash earlier = some hash → metadataHash later = some hash →
    firstKnown known hash = some earlier → later = earlier

variable {known : List (List UInt8)} {hash : Fingerprint} {index : Nat}

theorem claims_eq_some {proven : Bool}
    (claimed : claims known hash = some (index, proven)) : proven = false ∧ firstKnown known hash = some (known.getD index []) := by
  obtain ⟨index', found, same⟩ := map_eq_some_iff.mp claimed
  cases same
  have inside := (findIdx?_eq_some_iff_getElem.mp found).1
  refine ⟨rfl, ?_⟩
  unfold firstKnown
  rw [find?_eq_bind_findIdx?_getElem?, found, getD_eq_getElem _ _ inside]
  exact getElem?_eq_getElem inside

theorem claims_of_firstKnown {packet : List UInt8}
    (first : firstKnown known hash = some packet) : ∃ index, claims known hash = some (index, false) ∧ known.getD index [] = packet := by
  unfold firstKnown at first
  rw [find?_eq_bind_findIdx?_getElem?] at first
  obtain ⟨index, found, here⟩ := bind_eq_some_iff.mp first
  refine ⟨index, ?_, ?_⟩
  · unfold claims
    rw [found]
    rfl
  · grind

theorem prove_apply (known : List (List UInt8)) (claimed : Claims) (hash' hash : Fingerprint) (bytes : List UInt8) :
    prove known claimed hash' bytes hash =
      if hash = hash' then (claimed hash).map fun claim => (claim.1, claim.2 || decide (known.getD claim.1 [] = bytes))
      else claimed hash := by
  unfold prove
  rcases found : claimed hash' with _ | ⟨index, proven⟩
  · grind
  cases proven with
  | true =>
    grind
  | false =>
    grind

/-- What is proven, by the packets that were closed. -/
theorem claimedAfter_eq (known done : List (List UInt8)) (hash : Fingerprint) : claimedAfter known done hash =
    (claims known hash).map fun claim =>
      (claim.1, decide (known.getD claim.1 [] ∈ done ∧ metadataHash (known.getD claim.1 []) = some hash)) := by
  induction done using reverseRecOn with
  | nil =>
    show claims known hash = _
    rcases claimed : claims known hash with _ | ⟨index, proven⟩
    · rfl
    · obtain ⟨rfl, -⟩ := claims_eq_some claimed
      rw [map_some, decide_eq_false fun bad => absurd bad.1 not_mem_nil]
  | append_singleton done bytes ih =>
    rw [claimedAfter_append]
    -- the new packet counts under the hash it claims only
    have other (hash' : metadataHash bytes ≠ some hash) (claim : Nat × Bool) :
        (known.getD claim.1 [] ∈ done ∧ metadataHash (known.getD claim.1 []) = some hash) ↔
          known.getD claim.1 [] ∈ done ++ [bytes] ∧ metadataHash (known.getD claim.1 []) = some hash := by
      rw [mem_append, mem_singleton]
      constructor
      · exact fun old => ⟨.inl old.1, old.2⟩
      · grind
    have unchanged (hash' : metadataHash bytes ≠ some hash) : claimedAfter known done hash = (claims known hash).map fun claim =>
        (claim.1, decide (known.getD claim.1 [] ∈ done ++ [bytes] ∧ metadataHash (known.getD claim.1 []) = some hash)) := by
      rw [ih]
      exact map_congr fun claim _ => Prod.ext rfl (decide_eq_decide.mpr (other hash' claim))
    rcases claims' : metadataHash bytes with _ | hash'
    · exact unchanged (by rw [claims']; nofun)
    · rw [elim_some, prove_apply]
      split_ifs with same
      · rw [ih, Option.map_map]
        refine map_congr fun claim _ => Prod.ext rfl ?_
        show (decide _ || decide _) = _
        rw [← Bool.decide_or, decide_eq_decide, mem_append, mem_singleton, or_and_right]
        refine or_congr Iff.rfl ⟨fun new => ⟨new, ?_⟩, And.left⟩
        rw [new, claims', same]
      · grind

/-- A packet is compared with a known one if a copy of it was closed. -/
theorem copyIndex_claimedAfter_iff : copyIndex (claimedAfter known done) header = some index ↔
    prefixLen header.packetType = 0 ∧ claims known header.hash = some (index, false) ∧ known.getD index [] ∈ done ∧
      metadataHash (known.getD index []) = some header.hash := by
  constructor
  · intro copy
    obtain ⟨metadata, proven⟩ := copyIndex_eq_some copy
    rw [claimedAfter_eq] at proven
    obtain ⟨⟨index', proven'⟩, claimed, same⟩ := map_eq_some_iff.mp proven
    obtain ⟨rfl, -⟩ := claims_eq_some claimed
    obtain ⟨rfl, holds⟩ := Prod.mk.inj same
    exact ⟨metadata, claimed, of_decide_eq_true holds⟩
  · grind [claimedAfter_eq, copyIndex]

/-- A packet that is compared is the known one. -/
theorem Closes.eq_known (closes : Closes fingerprint options done bytes header)
    (copy : copyIndex (claimedAfter options.known done) header = some index) : options.known.getD index [] = bytes := by
  obtain ⟨same, start⟩ := closes.opens.copied index copy
  rw [← closes.length, ← same, take_length] at start
  exact start

theorem carried_of_closes (closes : Closes fingerprint options done bytes header)
    (before : ∀ packet ∈ done, Carried fingerprint options packet) : Carried fingerprint options bytes := by
  rcases copy : copyIndex _ header with _ | index
  · have opens := closes.opens
    exact ⟨header, ⟨opens.parsed, closes.length, closes.hash copy, opens.id, opens.within, opens.long⟩, opens.retained copy⟩
  · -- its copy was carried before
    obtain ⟨-, -, old, -⟩ := copyIndex_claimedAfter_iff.mp copy
    rw [closes.eq_known copy] at old
    exact before bytes old

theorem metadataHash_eq_some (claims : metadataHash bytes = some hash)
    (parsed : PacketHeader.parse bytes 0 = .ok header) : prefixLen header.packetType = 0 ∧ header.hash = hash := by
  rw [metadataHash_of_parse parsed, ite_none_right_eq_some, some.injEq] at claims
  exact claims

/-- The packets that close one behind the other. -/
theorem closed_iff {packets : List (List UInt8)} : Closed fingerprint options packets ↔
    (∀ bytes ∈ packets, Carried fingerprint options bytes) ∧ packets.length ≤ options.limits.maxPackets ∧
      Unambiguous options.known packets := by
  constructor
  · intro closed
    induction closed with
    | nil => exact ⟨nofun, Nat.zero_le _, .nil⟩
    | @snoc done bytes header before closes ih =>
      obtain ⟨carried, -, unambiguous⟩ := ih
      refine ⟨?_, ?_, ?_⟩
      · intro packet inside
        rcases mem_append.mp inside with old | new
        · exact carried packet old
        · obtain rfl := mem_singleton.mp new
          exact carried_of_closes closes carried
      · rw [length_append]
        exact closes.room
      · refine pairwise_append.mpr ⟨unambiguous, pairwise_singleton _ _, ?_⟩
        intro earlier old later new hash claimed claims' first
        obtain rfl := mem_singleton.mp new
        obtain ⟨metadata, rfl⟩ := metadataHash_eq_some claims' closes.opens.parsed
        obtain ⟨index, stands, rfl⟩ := claims_of_firstKnown first
        have copy := copyIndex_claimedAfter_iff.mpr ⟨metadata, stands, old, claimed⟩
        exact (closes.eq_known copy).symm
  · rintro ⟨carried, count, unambiguous⟩
    induction packets using reverseRecOn with
    | nil => exact .nil
    | append_singleton done bytes ih =>
      obtain ⟨earlier, -, later⟩ := pairwise_append.mp unambiguous
      rw [length_append] at count
      obtain ⟨header, packet, retained⟩ := carried bytes (mem_append_right _ (mem_singleton_self _))
      have before := ih (fun bytes inside => carried bytes (mem_append_left _ inside)) (Nat.le_of_succ_le count) earlier
      have opens (copied) : Opens options done bytes header :=
        ⟨packet.parsed, packet.id, packet.within, packet.long, copied, fun _ => retained⟩
      refine before.snoc ⟨opens ?_, packet.length, fun _ => packet.hash, count⟩
      intro index copy
      obtain ⟨metadata, claimed, old, claims'⟩ := copyIndex_claimedAfter_iff.mp copy
      have same := later _ old _ (mem_singleton_self bytes) header.hash claims'
        (by rw [metadataHash_of_parse packet.parsed, if_pos metadata]) (claims_eq_some claimed).2
      rw [← same, packet.length, take_length]
      exact ⟨rfl, rfl⟩

/-- The writer accepts a sequence of calls and its end exactly if the bytes that were passed on are the packets of a carrier of the
expected length, and no packet is one too many or follows another packet that stands for its hash. Whatever the budget refuses,
nothing but valid packets is ever accepted. -/
theorem finish_iff_carrier (fingerprint : Hash) (options : WriterOptions) (calls : List Write) (expected : Nat) :
    (Unrefused (writes fingerprint options (new options) calls).2 →
      finish (writes fingerprint options (new options) calls).1 expected = .ok () →
      ∃ packets : List (List UInt8), passedOn calls = packets.flatten ∧ packets.flatten.length = expected ∧
        ∀ bytes ∈ packets, ∃ header, CarrierPacket fingerprint options bytes header) ∧
    ((∀ call bytes, options.reserve call bytes = true) →
      (Unrefused (writes fingerprint options (new options) calls).2 ∧
        finish (writes fingerprint options (new options) calls).1 expected = .ok () ↔
      ∃ packets : List (List UInt8), passedOn calls = packets.flatten ∧ packets.flatten.length = expected ∧
        (∀ bytes ∈ packets, Carried fingerprint options bytes) ∧ packets.length ≤ options.limits.maxPackets ∧
        Unambiguous options.known packets)) := by
  constructor
  · intro unrefused finished
    obtain ⟨packets, closed, bytes, length⟩ := closed_of_finish calls _ unrefused finished
    refine ⟨packets, bytes, by rw [← bytes, length], fun packet inside => ?_⟩
    obtain ⟨header, valid, -⟩ := (closed_iff.mp closed).1 packet inside
    exact ⟨header, valid⟩
  · intro granted
    rw [finish_iff_closed granted]
    constructor
    · rintro ⟨packets, closed, bytes, length⟩
      exact ⟨packets, bytes, by rw [← bytes, length], closed_iff.mp closed⟩
    · rintro ⟨packets, bytes, length, carried⟩
      exact ⟨packets, closed_iff.mpr carried, bytes, by rw [bytes, length]⟩

/-- A comment that is written twice, cut at odd places; the second copy is compared with the known one. -/
theorem finish_iff_carrier_repeated :
    let hash : Hash := fun _ => Vector.replicate 16 0
    let id : InputSetId := Vector.replicate 8 7
    let packet := (Packet.new hash id (.comment ⟨[65]⟩)).toBytes
    let options : WriterOptions := ⟨id, .default, 1000, [packet], fun _ _ => true⟩
    let calls : List Write := [⟨packet, some 10, by decide⟩, ⟨packet, none, nofun⟩, ⟨packet.drop 10 ++ packet, some 88, by decide⟩]
    Unrefused (writes hash options (new options) calls).2 ∧ finish (writes hash options (new options) calls).1 98 = .ok () := by
  intro hash id packet options calls
  have carried : Carried hash options packet := by
    have parsed := PacketHeader.parse_write ⟨Vector.replicate 16 0, 49, id, .comment⟩ (by decide) (by decide) 0 [65]
    exact ⟨_, ⟨parsed, rfl, rfl, rfl, by decide, by decide⟩, fun _ => by decide⟩
  refine ((finish_iff_carrier hash options calls 98).2 fun _ _ => rfl).mpr ⟨[packet, packet], by decide, by decide, ?_, by decide, ?_⟩
  · grind
  · refine pairwise_pair.mpr fun _ _ _ _ => rfl

/-- Bytes that were refused are passed on, and the end does not notice. -/
theorem refused_bytes_are_not_counted : ¬ ∀ (fingerprint : Hash) (options : WriterOptions) (calls : List Write) (expected : Nat),
    finish (writes fingerprint options (new options) calls).1 expected = .ok () ↔
      ∃ packets : List (List UInt8), passedOn calls = packets.flatten ∧ packets.flatten.length = expected ∧
        ∀ bytes ∈ packets, ∃ header, CarrierPacket fingerprint options bytes header := by
  intro all
  let options : WriterOptions := ⟨Vector.replicate 8 7, .default, 1000, [], fun _ _ => true⟩
  obtain ⟨packets, bytes, length, -⟩ := (all (fun _ => Vector.replicate 16 0) options [⟨replicate 48 0, some 48, by decide⟩] 0).mp rfl
  rw [← bytes] at length
  exact absurd length (by decide)

end AuthenticatingWriter
end Rarpar.Par3

import Rarpar.Par3.Scan

namespace Rarpar.Par3
open Bytes Resync List ScanState
variable {fingerprint : Hash} {limits : ScanLimits} {data : List UInt8} {packet : Packet} {context : ParseContext}

/-! A scan returns the hash-valid packets of the bytes, and nothing is lost on the way back to bytes. -/

/-- A packet found at a place, by its header. -/
def headed (found : Nat × Packet) : Nat × PacketHeader := (found.1, found.2.header)

namespace ScanState

/-- The packets the loop adds are those a walk from its offset takes, and each of them is sound. -/
theorem run_walk {fuel : Nat} {state after : ScanState} (ran : state.run fingerprint limits data fuel = .ok after)
    (enough : data.length ≤ state.offset + fuel) : ∃ added, after.found = state.found ++ added ∧
      after.contexts = added.foldl (fun contexts found => learn contexts found.2) state.contexts ∧
      (∀ found ∈ added, Packet.Sound fingerprint found.2) ∧
      Walk (findMagic data) (packetAt fingerprint limits.maxPacketLen data) PacketHeader.length 8 state.offset (added.map headed) := by
  induction fuel generalizing state with
  | zero =>
    cases ran
    refine ⟨[], (append_nil _).symm, rfl, nofun, .stop ?_⟩
    unfold findMagic
    rw [if_pos (by omega)]
  | succ fuel ih =>
    unfold run at ran
    split at ran
    · rename_i free
      cases ran
      exact ⟨[], (append_nil _).symm, rfl, nofun, .stop free⟩
    rename_i position found
    have low : state.offset ≤ position := by
      rw [findMagic_eq] at found
      exact ((Search.firstFrom_eq_some_iff magic_ne_nil).mp found).1
    split at ran
    · rename_i next stepped
      rcases judged : packetAt fingerprint limits.maxPacketLen data position with _ | header
      · obtain ⟨failed, rfl⟩ := step_other judged stepped
        obtain ⟨added, found', learned, sound, walk⟩ := ih ran (by dsimp only; omega)
        exact ⟨added, found', learned, sound, .refuse found judged walk⟩
      · obtain ⟨packet, same, shape, here, -⟩ := step_packet state judged
        have kept := keep_eq_ok (same.symm.trans stepped)
        have length : packet.length = header.length := congrArg PacketHeader.length shape
        have size : 48 ≤ packet.length := here.long
        obtain ⟨added, found', learned, sound, walk⟩ := ih ran (by rw [kept.offset]; omega)
        refine ⟨(position, packet) :: added, ?_, ?_, ?_, ?_⟩
        · rw [found', kept.found, append_assoc]
          rfl
        · rw [learned, kept.contexts]
          rfl
        · grind
        · rw [map_cons]
          unfold headed
          rw [shape]
          rw [kept.offset, length] at walk
          exact .accept found judged walk
    · cases ran

end ScanState

/-- A packet that is resolved keeps everything but the reading of its body. -/
structure Resolved (fingerprint : Hash) (packet resolved : Packet) : Prop where
  sound : Packet.Sound fingerprint resolved
  header : resolved.header = packet.header
  bytes : resolved.toBytes = packet.toBytes

theorem resolved_resolveDeferred (sound : Packet.Sound fingerprint packet) (contexts : Contexts) :
    Resolved fingerprint packet (resolveDeferred fingerprint contexts packet) := by
  have same : Resolved fingerprint packet packet := ⟨sound, rfl, rfl⟩
  unfold resolveDeferred
  split
  · rename_i packetType body shape
    split
    · split
      · exact same
      · split
        · rename_i parsed read
          obtain ⟨spelled, typed⟩ := PacketBody.writeBody_parse read
          have spelled' : parsed.writeBody = packet.body.writeBody := by
            rw [spelled, shape]
            rfl
          have typed' : parsed.packetType = packet.body.packetType := by
            rw [typed, shape]
            rfl
          refine ⟨Packet.sound_new _ _ _, ?_, ?_⟩
          · grind [sound.new_eq, Packet.header]
          · grind [sound.new_eq, Packet.toBytes]
        · exact same
    · exact same
  · exact same

/-- Start packets are never deferred. -/
theorem learn_resolveDeferred (known contexts : Contexts) (packet : Packet) :
    learn known (resolveDeferred fingerprint contexts packet) = learn known packet := by
  unfold resolveDeferred
  split
  · rename_i packetType body shape
    split_ifs with needs
    · split
      · rfl
      · split
        · rename_i parsed read
          have typed := (PacketBody.writeBody_parse read).2
          unfold learn
          rw [shape]
          split
          · rename_i start same
            have other : packetType = .start := by
              rw [← typed]
              exact congrArg PacketBody.packetType same
            rw [other] at needs
            cases needs
          · rfl
        · rfl
    · rfl
  · rfl

theorem PacketBody.parse_ne_opaque {packetType packetType' : PacketType} {body body' : List UInt8}
    {parsed : PacketBody} (read : parse packetType body context = .ok parsed) (needs : needsContext packetType = true) :
    parsed ≠ .opaqueBody packetType' body' := by
  rintro rfl
  rcases of_decide_eq_true needs with rfl | rfl
  · dsimp only [parse] at read
    split at read
    · cases read
    · generalize FilePacket.parse _ _ = outcome at read
      cases outcome <;> cases read
  · dsimp only [parse] at read
    split at read
    · cases read
    · generalize ExplicitMatrixPacket.parse _ _ = outcome at read
      cases outcome <;> cases read

/-- What is left opaque could not be read. -/
theorem resolveDeferred_opaque {contexts : Contexts} {packetType : PacketType} {body : List UInt8}
    (left : (resolveDeferred fingerprint contexts packet).body = .opaqueBody packetType body)
    (needs : PacketBody.needsContext packetType = true)
    (known : contexts (resolveDeferred fingerprint contexts packet).inputSetId = some context) :
    ∃ e, PacketBody.parse packetType body context = .error e := by
  unfold resolveDeferred at left known
  split at left
  · rename_i packetType' body' shape
    rw [shape] at known
    dsimp only at known
    split at left
    · rename_i needs'
      rw [if_pos needs'] at known
      split at left
      · grind
      · rename_i context' known'
        rw [known'] at known
        split at left
        · -- the resolved body is typed
          rename_i parsed read
          exact absurd left (PacketBody.parse_ne_opaque read needs')
        · grind
    · grind
  · grind

/-! ### Concatenated packets -/

/-- Byte strings that are hash-valid packets. -/
def HashValid (fingerprint : Hash) (bytes : List UInt8) : Prop :=
  ∃ header, PacketHeader.parse bytes 0 = .ok header ∧ header.length = bytes.length ∧
    fingerprint (bytes.drop hashedFrom) = header.hash

/-- Sound packets write such strings. -/
theorem Packet.Sound.hashValid (sound : Packet.Sound fingerprint packet) (small : packet.length < 256 ^ 8) :
    HashValid fingerprint packet.toBytes := by
  have parsed := PacketHeader.parse_write packet.header sound.long small 0 packet.body.writeBody
  refine ⟨_, parsed, ?_, ?_⟩
  · rw [Packet.length_toBytes]
    exact sound.length
  · rw [Packet.drop_toBytes]
    exact sound.hash.symm

/-- Byte strings with the places they stand at, one behind the other. -/
def laidOut : Nat → List (List UInt8) → List (Nat × List UInt8)
  | _, [] => []
  | position, bytes :: rest => (position, bytes) :: laidOut (position + bytes.length) rest

theorem HashValid.packetAt {bytes : List UInt8} {maxPacketLen : Nat} (valid : HashValid fingerprint bytes)
    (within : bytes.length ≤ maxPacketLen) (front back : List UInt8) :
    ∃ header, packetAt fingerprint maxPacketLen (front ++ (bytes ++ back)) front.length = some header ∧
      header.length = bytes.length := by
  obtain ⟨header, parsed, length, hashed⟩ := valid
  have size : headerSize ≤ bytes.length := (PacketHeader.parse_eq_ok.mp parsed).1
  refine ⟨header, packetAt_eq_some_iff.mpr ⟨?_, ?_, ?_, ?_⟩, length⟩
  · rw [drop_left]
    have start : PacketHeader.parse ((bytes ++ back).take bytes.length) 0 = .ok header := by
      rw [take_left]
      exact parsed
    exact (PacketHeader.parse_take size front.length).mp start
  · omega
  · grind
  · grind

namespace ScanState

/-- The loop over concatenated packets keeps each of them. -/
theorem run_concat {fuel : Nat} (state : ScanState) (front : List UInt8) {packets : List (List UInt8)}
    (valid : ∀ bytes ∈ packets, HashValid fingerprint bytes ∧ bytes.length ≤ limits.maxPacketLen)
    (here : state.offset = front.length) (count : state.found.length + packets.length ≤ limits.maxPackets)
    (retained : state.retainedBytes + packets.flatten.length ≤ limits.maxRetainedBytes) (enough : packets.flatten.length ≤ fuel) :
    ∃ after, state.run fingerprint limits (front ++ packets.flatten) fuel = .ok after ∧
      after.found.map (fun found => (found.1, found.2.toBytes)) =
        state.found.map (fun found => (found.1, found.2.toBytes)) ++ laidOut front.length packets := by
  induction packets generalizing fuel state front with
  | nil =>
    have free : findMagic (front ++ []) state.offset = none := by
      unfold findMagic
      rw [append_nil, if_pos (Nat.le_of_eq here.symm)]
    refine ⟨state, ?_, (append_nil _).symm⟩
    cases fuel with
    | zero => rfl
    | succ fuel =>
      unfold run
      rw [flatten_nil, free]
  | cons bytes rest ih =>
    obtain ⟨hashValid, within⟩ := valid bytes mem_cons_self
    rw [flatten_cons] at retained enough ⊢
    rw [length_append] at retained enough
    rw [length_cons] at count
    have size : headerSize ≤ bytes.length := by
      obtain ⟨header, parsed, -⟩ := hashValid
      exact (PacketHeader.parse_eq_ok.mp parsed).1
    have size48 : headerSize = 48 := rfl
    obtain ⟨header, judged, length⟩ := hashValid.packetAt within front rest.flatten
    obtain ⟨packet, stepped, shape, sound, spelled⟩ := step_packet state judged
    have packetLength : packet.length = bytes.length := (congrArg PacketHeader.length shape).trans length
    rw [length, drop_left, take_left] at spelled
    have found : findMagic (front ++ (bytes ++ rest.flatten)) state.offset = some front.length := by
      rw [findMagic_eq, here]
      refine Search.firstFrom_self magic_ne_nil ?_
      have parsed := (packetAt_eq_some_iff.mp judged).1
      exact decide_eq_true (PacketHeader.parse_eq_ok.mp parsed).2.1
    obtain ⟨next, kept, less⟩ := keep_ok front.length (show state.found.length < limits.maxPackets by omega)
      (show state.retainedBytes + packet.length ≤ limits.maxRetainedBytes by omega)
    have change := keep_eq_ok kept
    obtain ⟨fuel, rfl⟩ : ∃ less, fuel = less + 1 := ⟨fuel - 1, by omega⟩
    have offset : next.offset = (front ++ bytes).length := by
      rw [change.offset, length_append, packetLength]
    have more : next.found.length = state.found.length + 1 := by
      rw [change.found, length_append]
      rfl
    obtain ⟨after, ran, all⟩ := ih next (front ++ bytes) (fun bytes inside => valid bytes (mem_cons_of_mem _ inside)) offset
      (by omega) (by omega) (show rest.flatten.length ≤ fuel by omega)
    refine ⟨after, ?_, ?_⟩
    · unfold run
      rw [found]
      dsimp only
      rw [stepped, kept]
      rw [← append_assoc]
      exact ran
    · rw [all, change.found, map_append, append_assoc, length_append]
      rw [← spelled]
      rfl

end ScanState

/-- What the Start packets among these say of their sets. -/
def knownContexts (found : List (Nat × Packet)) : Contexts :=
  found.foldl (fun contexts entry => ScanState.learn contexts entry.2) fun _ => none

theorem knownContexts_resolveDeferred (contexts : Contexts) (found : List (Nat × Packet)) :
    knownContexts (found.map fun entry => (entry.1, resolveDeferred fingerprint contexts entry.2)) = knownContexts found := by
  unfold knownContexts
  rw [foldl_map]
  congr 1
  funext known entry
  exact learn_resolveDeferred known _ entry.2

/-- A scan that succeeds took what a walk over the hash-valid packets takes. Its packets are sound, and those it left opaque
for want of a Start packet cannot be read with the Start packets it found. -/
structure ScanResult (fingerprint : Hash) (limits : ScanLimits) (data : List UInt8) (found : List (Nat × Packet)) : Prop where
  walk : Walk (findMagic data) (packetAt fingerprint limits.maxPacketLen data) PacketHeader.length 8 0 (found.map headed)
  sound : ∀ entry ∈ found, Packet.Sound fingerprint entry.2
  resolved : ∀ entry ∈ found, ∀ packetType body context, entry.2.body = .opaqueBody packetType body →
    PacketBody.needsContext packetType = true → knownContexts found entry.2.inputSetId = some context →
    ∃ e, PacketBody.parse packetType body context = .error e

theorem scan_result {found : List (Nat × Packet)} (scanned : scanPacketsWithLimits fingerprint data limits = .ok found) :
    ScanResult fingerprint limits data found := by
  unfold scanPacketsWithLimits at scanned
  split at scanned
  · rename_i after ran
    obtain ⟨added, same, learned, sound, walk⟩ := run_walk ran (Nat.le_add_left _ _)
    obtain rfl : after.found = added := same
    have known : after.contexts = knownContexts after.found := learned
    cases scanned
    refine ⟨?_, ?_, ?_⟩
    · rw [map_map]
      refine cast (congrArg _ (map_congr_left fun entry inside => ?_)) walk
      exact Prod.ext rfl (resolved_resolveDeferred (sound entry inside) _).header.symm
    · intro entry inside
      obtain ⟨before, old, rfl⟩ := mem_map.mp inside
      exact (resolved_resolveDeferred (sound before old) _).sound
    · intro entry inside packetType body context left needs
      obtain ⟨before, old, rfl⟩ := mem_map.mp inside
      rw [knownContexts_resolveDeferred, ← known]
      exact resolveDeferred_opaque left needs
  · cases scanned

/-- A packet that is parsed writes the bytes it was parsed from, and a scan over concatenated packets finds each of them,
in order and at its place, with its bytes. -/
theorem packets_round_trip (fingerprint : Hash) :
    (∀ data offset context packet, Packet.parse fingerprint data offset context = .ok packet →
      packet.length ≤ data.length ∧ packet.toBytes = data.take packet.length) ∧
    ∀ (limits : ScanLimits) (packets : List (List UInt8)),
      (∀ bytes ∈ packets, HashValid fingerprint bytes ∧ bytes.length ≤ limits.maxPacketLen) →
      packets.length ≤ limits.maxPackets → packets.flatten.length ≤ limits.maxRetainedBytes →
      ∃ found, scanPacketsWithLimits fingerprint packets.flatten limits = .ok found ∧
        found.map (fun entry => (entry.1, entry.2.toBytes)) = laidOut 0 packets ∧
        ∀ entry ∈ found, ∀ packetType body context, entry.2.body = .opaqueBody packetType body →
          PacketBody.needsContext packetType = true → knownContexts found entry.2.inputSetId = some context →
          ∃ e, PacketBody.parse packetType body context = .error e := by
  refine ⟨?_, ?_⟩
  · intro data offset context packet parsed
    obtain ⟨header, -, long, -, -, -, length, -⟩ := Packet.parse_eq_ok parsed
    exact ⟨by omega, Packet.toBytes_parse_take parsed⟩
  · intro limits packets valid count retained
    obtain ⟨after, ran, all⟩ := run_concat .initial [] valid rfl (by simpa [initial] using count)
      (by simpa [initial] using retained) (Nat.le_refl _)
    rw [nil_append] at ran
    obtain ⟨added, same, -, sound, -⟩ := run_walk ran (Nat.le_add_left _ _)
    obtain rfl : after.found = added := same
    have scanned : scanPacketsWithLimits fingerprint packets.flatten limits =
        .ok (after.found.map fun entry => (entry.1, resolveDeferred fingerprint after.contexts entry.2)) := by
      unfold scanPacketsWithLimits
      rw [ran]
    refine ⟨_, scanned, ?_, (scan_result scanned).resolved⟩
    rw [map_map]
    refine (map_congr_left fun entry inside => ?_).trans all
    exact Prod.ext rfl (resolved_resolveDeferred (sound entry inside) _).bytes

/-- A File packet before its Start packet: -/
theorem packets_round_trip_deferred :
    let hash : Hash := fun _ => Vector.replicate 16 0
    let id : InputSetId := Vector.replicate 8 7
    let file := (Packet.new hash id (.file ⟨[97], 0, Vector.replicate 16 0, [], []⟩)).toBytes
    let start := (Packet.new hash id (.start ⟨Vector.replicate 8 0, Vector.replicate 16 0, 4, ⟨1, 29⟩, none⟩)).toBytes
    ∃ found, scanPacketsWithLimits hash (file ++ (start ++ [])) .default = .ok found ∧
      found.map (fun entry => (entry.1, entry.2.toBytes)) = [(0, file), (76, start)] := by
  intro hash id file start
  have valid : ∀ bytes ∈ [file, start], HashValid hash bytes ∧ bytes.length ≤ ScanLimits.default.maxPacketLen := by
    intro bytes inside
    rcases mem_pair.mp inside with rfl | rfl
    · exact ⟨(Packet.sound_new _ _ _).hashValid (by decide), by decide⟩
    · exact ⟨(Packet.sound_new _ _ _).hashValid (by decide), by decide⟩
  obtain ⟨found, scanned, all, -⟩ := (packets_round_trip hash).2 .default [file, start] valid (by decide) (by decide +kernel)
  exact ⟨found, scanned, all⟩

/-- The bytes behind a packet are not written again. -/
theorem trailing_bytes_are_dropped : ¬ ∃ fingerprint : Hash, ∀ data offset context packet,
    Packet.parse fingerprint data offset context = .ok packet → packet.toBytes = data := by
  rintro ⟨fingerprint, exact'⟩
  have sound := Packet.sound_new fingerprint (Vector.replicate 8 0) (.comment ⟨[]⟩)
  obtain ⟨packet, parsed, same⟩ := sound.parse_toBytes (show 48 < 256 ^ 8 by decide) 0 .new [0]
  have whole := exact' _ _ _ _ parsed
  have lengths := congrArg length (same.symm.trans whole)
  rw [length_append] at lengths
  exact absurd lengths (by simp)

end Rarpar.Par3

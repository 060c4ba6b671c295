import Rarpar.Par3.PacketBody

namespace Rarpar.Par3
open Bytes ByteParser BodyReader List Yields Exhausts Returns BlockChecksum

/-! Every packet that is parsed writes the bytes it was parsed from. -/

/-! ### Fields -/

namespace BodyReader
variable (packet : String) {α : Type} {spells : α → List UInt8 → Prop}

theorem malformed_yields (reason : String) :
    Yields (malformed packet reason : BodyReader α) spells := throw _

theorem take_yields (count : Nat) : Yields (take packet count) fun taken bytes => taken = bytes ∧ taken.length = count := by
  intro c taken c' ran
  obtain ⟨_, _, got, ran⟩ := bind_eq_ok.mp ran
  cases got
  by_cases short : c.remaining < count
  · rw [if_pos short] at ran
    cases ran
  · rw [if_neg short] at ran
    obtain ⟨_, _, placed, ran⟩ := bind_eq_ok.mp ran
    cases placed
    obtain ⟨rfl, rfl⟩ := pure_eq_ok.mp ran
    refine ⟨c.rest.take count, ?_, rfl, ?_⟩
    · rw [c.rest_skip, take_append_drop]
    · rw [length_take, c.length_rest]
      omega

theorem number_yields (width : Nat) : Yields (number packet width) fun n bytes => bytes = leBytes width n ∧ n < 256 ^ width := by
  refine (take_yields packet width).step ?_
  rintro bytes _ ⟨rfl, rfl⟩
  refine pure ⟨?_, leNat_lt bytes⟩
  rw [leBytes_leNat, append_nil]

theorem number_encodes (width : Nat) : Encodes (number packet width) (leBytes width) := by
  intro c n c' ran
  obtain ⟨bytes, consumed, spelled, -⟩ := number_yields packet width c n c' ran
  exact ⟨bytes, consumed, spelled⟩

theorem u64_encodes : Encodes (u64 packet) (leBytes 8) := number_encodes packet 8

theorem i8_encodes : Encodes (i8 packet) fun value => [value.toUInt8] := by
  refine (take_yields packet 1).step ?_
  rintro taken _ ⟨rfl, length⟩
  obtain ⟨byte, rfl⟩ := length_eq_one_iff.mp length
  exact pure rfl

theorem fixed_encodes (size : Nat) : Encodes (fixed packet size) Vector.toList := by
  refine (take_yields packet size).step ?_
  rintro taken _ ⟨rfl, length⟩
  refine pure ?_
  rw [toList_array_zero length, append_nil]

theorem fingerprint_encodes : Encodes (fingerprint packet) Vector.toList := fixed_encodes packet 16

theorem fingerprints_yields (count : Nat) (what : String) :
    Yields (fingerprints packet count what) fun hashes bytes => hashes.length = count ∧ bytes = hashes.flatMap Vector.toList := by
  refine get_bind fun c => ?_
  refine ite (fun _ => malformed_yields packet _) fun _ => ?_
  exact ite (fun _ => malformed_yields packet _) fun _ => (fingerprint_encodes packet).replicate count

theorem finish_exhausts : Exhausts (finish packet) fun _ bytes => bytes = [] := by
  intro c _ c' ran
  obtain ⟨_, _, got, ran⟩ := bind_eq_ok.mp ran
  cases got
  by_cases done : c.remaining = 0
  · exact eq_nil_of_length_eq_zero (c.length_rest.trans done)
  · rw [if_neg done] at ran
    cases ran

theorem rest_exhausts : Exhausts rest fun taken bytes => taken = bytes := by
  intro c taken c' ran
  obtain ⟨_, _, got, ran⟩ := bind_eq_ok.mp ran
  cases got
  obtain ⟨_, _, placed, ran⟩ := bind_eq_ok.mp ran
  cases placed
  exact (pure_eq_ok.mp ran).1.symm

/-- Items to the end of a body, once the cursor was looked at. -/
theorem toEnd_exhausts {item : BodyReader α} {encode : α → List UInt8} (encodes : Encodes item encode)
    (nonempty : ∀ a, 0 < (encode a).length) {c c' : Cursor} {list : List α} (ran : toEnd item c.remaining c = .ok (list, c')) :
    c.rest = list.flatMap encode := encodes.toEnd nonempty (Nat.le_refl _) ran

theorem run_spells {reader : BodyReader α}
    (exhausts : Exhausts reader spells) {body : List UInt8} {a : α} (ran : reader.run body = .ok a) : spells a body := by
  obtain ⟨c', ran⟩ := run_eq_ok ran
  exact exhausts ⟨body, 0⟩ a c' ran

end BodyReader

/-! ### Bodies -/

/-- Whatever is read writes the bytes it was read from. -/
def Restores {α : Type} (reader : BodyReader α) (writeBody : α → List UInt8) : Prop :=
  Exhausts reader fun packet bytes => writeBody packet = bytes

theorem StartPacket.exhausts (length : Nat) : Restores (reader length) writeBody := by
  refine ((fixed_encodes _ 8).optional _).exhausts fun legacyRandom => ?_
  refine (fixed_encodes _ 8).exhausts fun parentInputSetId => ?_
  refine (fingerprint_encodes _).exhausts fun parentRootHash => ?_
  refine (u64_encodes _).exhausts fun blockSize => ?_
  refine (number_encodes _ 1).exhausts fun size => ?_
  refine ite (fun _ => throw _) fun small => ?_
  refine step (take_yields _ size) ?_
  rintro generator _ ⟨rfl, rfl⟩
  refine (finish_exhausts _).last ?_
  rintro _ _ rfl
  refine ite (fun _ => throw _) fun _ => pure ?_
  have spelled := take_leBytes_leNat (Nat.le_of_not_lt small)
  simp only [writeBody, spelled, append_assoc, append_nil]

theorem DataPacket.exhausts : Restores reader writeBody := by
  refine (u64_encodes _).exhausts fun blockIndex => ?_
  refine rest_exhausts.last ?_
  rintro data _ rfl
  exact pure rfl

variable (packet : String)

theorem BlockChecksum.encodes : Encodes (reader packet) write := by
  refine (u64_encodes packet).yields fun rollingHash => ?_
  refine (fingerprint_encodes packet).yields fun fingerprint => ?_
  exact pure (congrArg (leBytes 8 rollingHash ++ ·) (append_nil _))

theorem checksumsToEnd_exhausts :
    Exhausts (checksumsToEnd packet) fun checksums bytes => bytes = checksums.flatMap write := by
  refine get_bind fun c checksums c' ran => ?_
  by_cases odd : c.remaining % checksumPairLen ≠ 0
  · rw [if_pos odd] at ran
    cases ran
  · grind [write, length_append, length_leBytes, toEnd_exhausts, encodes]

theorem ExternalDataPacket.exhausts : Restores reader writeBody := by
  refine (u64_encodes _).exhausts fun firstBlockIndex => ?_
  refine (checksumsToEnd_exhausts _).last ?_
  rintro checksums _ rfl
  exact pure rfl

theorem BlockRange.encodes : Encodes (BlockRange.reader packet) BlockRange.write := by
  refine (u64_encodes packet).yields fun first => ?_
  refine (u64_encodes packet).yields fun stop => ?_
  exact pure (congrArg (leBytes 8 first ++ ·) (append_nil _))

theorem CauchyMatrixPacket.exhausts : Restores reader writeBody := by
  refine (BlockRange.encodes _).exhausts fun range => ?_
  refine (u64_encodes _).exhausts fun recoveryBlockHint => ?_
  refine (finish_exhausts _).last ?_
  rintro _ _ rfl
  refine pure ?_
  rw [writeBody, append_nil]

theorem SparseRandomMatrixPacket.exhausts : Restores reader writeBody := by
  refine (BlockRange.encodes _).exhausts fun range => ?_
  refine (u64_encodes _).exhausts fun maxRecoveryBlocks => ?_
  refine (u64_encodes _).exhausts fun nonZeroPerInputBlock => ?_
  refine (u64_encodes _).exhausts fun seed => ?_
  refine (finish_exhausts _).last ?_
  rintro _ _ rfl
  refine pure ?_
  simp only [writeBody, append_assoc, append_nil]

theorem ExplicitMatrixPacket.entry_encodes {factorSize : Nat} (small : factorSize ≤ 8) :
    Encodes (ExplicitMatrixPacket.entryReader factorSize) (ExplicitMatrixPacket.writeEntry factorSize) := by
  refine (u64_encodes _).yields fun blockIndex => ?_
  refine step (take_yields _ _) ?_
  rintro stored _ ⟨rfl, rfl⟩
  refine pure ?_
  rw [writeEntry, take_leBytes_leNat small, append_nil]

theorem ExplicitMatrixPacket.exhausts (factorSize : Nat) : Restores (reader factorSize) writeBody := by
  refine get_bind fun c packet c' ran => ?_
  by_cases bad : factorSize = 0 ∨ 8 < factorSize
  · rw [if_pos bad] at ran
    cases ran
  rw [if_neg bad] at ran
  by_cases odd : c.remaining % (8 + factorSize) ≠ 0
  · rw [if_pos odd] at ran
    cases ran
  rw [if_neg odd] at ran
  obtain ⟨entries, _, read, ran⟩ := bind_eq_ok.mp ran
  obtain ⟨rfl, -⟩ := pure_eq_ok.mp ran
  refine (toEnd_exhausts (entry_encodes (by omega)) (fun entry => ?_) read).symm
  simp only [writeEntry, length_append, length_leBytes]
  omega

theorem FftMatrixPacket.exhausts : Restores reader writeBody := by
  refine (BlockRange.encodes _).exhausts fun range => ?_
  refine (i8_encodes _).exhausts fun maxRecoveryBlocksLog2 => ?_
  refine get_bind fun c packet c' ran => ?_
  by_cases long : 8 < c.remaining
  · rw [if_pos long] at ran
    cases ran
  rw [if_neg long] at ran
  obtain ⟨interleave, c'', read, ran⟩ := bind_eq_ok.mp ran
  obtain ⟨rfl, -⟩ := pure_eq_ok.mp ran
  obtain ⟨_, consumed, rfl, length⟩ := take_yields "FFT Matrix" c.remaining c interleave c'' read
  have spelled := take_leBytes_leNat (show interleave.length ≤ 8 by omega)
  rw [length] at spelled
  rw [Cursor.rest_eq consumed length, writeBody, spelled, append_assoc]

theorem RecoveryDataPacket.exhausts : Restores reader writeBody := by
  refine (fingerprint_encodes _).exhausts fun rootHash => ?_
  refine (fingerprint_encodes _).exhausts fun matrixHash => ?_
  refine (u64_encodes _).exhausts fun recoveryBlockIndex => ?_
  refine rest_exhausts.last ?_
  rintro data _ rfl
  refine pure ?_
  simp only [writeBody, append_assoc]

theorem RecoveryExternalDataPacket.exhausts : Restores reader writeBody := by
  refine (fingerprint_encodes _).exhausts fun rootHash => ?_
  refine (fingerprint_encodes _).exhausts fun matrixHash => ?_
  refine (u64_encodes _).exhausts fun firstRecoveryBlockIndex => ?_
  refine (checksumsToEnd_exhausts _).last ?_
  rintro checksums _ rfl
  refine pure ?_
  simp only [writeBody, append_assoc]

/-! ### The tree -/

theorem length_flatMap_toList (hashes : List Fingerprint) : (hashes.flatMap Vector.toList).length = 16 * hashes.length := by
  simp only [length_flatMap, Vector.length_toList, map_const', sum_replicate_nat, Nat.mul_comm]

theorem decodeName_eq_ok {bytes name : List UInt8} {packet : String} (decoded : decodeName bytes packet = .ok name) : name = bytes := by
  unfold decodeName at decoded
  split_ifs at decoded
  · grind

theorem hashesToEnd_exhausts : Exhausts (hashesToEnd packet) fun hashes bytes => writeHashes hashes.1 hashes.2 = bytes := by
  refine (number_encodes packet 4).exhausts fun optionCount => ?_
  refine step (fingerprints_yields packet optionCount "option") ?_
  rintro optionHashes _ ⟨rfl, rfl⟩
  refine get_bind fun c hashes c' ran => ?_
  by_cases odd : c.remaining % 16 ≠ 0
  · rw [if_pos odd] at ran
    cases ran
  rw [if_neg odd] at ran
  obtain ⟨children, c'', read, ran⟩ := bind_eq_ok.mp ran
  obtain ⟨rfl, -⟩ := pure_eq_ok.mp ran
  obtain ⟨_, consumed, count, rfl⟩ := fingerprints_yields packet _ "child" c children c'' read
  have all : (children.flatMap Vector.toList).length = c.remaining := by
    rw [length_flatMap_toList]
    omega
  rw [Cursor.rest_eq consumed all, writeHashes, append_assoc]

theorem nameReader_yields :
    Yields (nameReader packet) fun name bytes => bytes = leBytes 2 name.length ++ name ∧ name.length < 65536 := by
  refine (number_yields packet 2).step ?_
  rintro nameLen _ ⟨rfl, small⟩
  refine (take_yields packet nameLen).step ?_
  rintro taken _ ⟨rfl, rfl⟩
  rcases decoded : decodeName taken packet with error | name
  · exact throw error
  · obtain rfl := decodeName_eq_ok decoded
    exact pure ⟨by rw [append_nil], small⟩

theorem DirectoryPacket.exhausts : Restores reader writeBody := by
  refine step (nameReader_yields _) ?_
  rintro name _ ⟨rfl, -⟩
  refine (hashesToEnd_exhausts _).last ?_
  rintro ⟨optionHashes, children⟩ _ rfl
  exact pure rfl

theorem RootPacket.exhausts : Restores reader writeBody := by
  refine (u64_encodes _).exhausts fun lowestUnusedBlockIndex => ?_
  refine (number_encodes _ 1).exhausts fun attributes => ?_
  refine ite (fun _ => throw _) fun _ => ?_
  refine (hashesToEnd_exhausts _).last ?_
  rintro ⟨optionHashes, children⟩ _ rfl
  refine pure ?_
  simp only [writeBody, append_assoc]

theorem ChunkTail.encodes (tailSize : Nat) : Encodes (ChunkTail.reader tailSize) ChunkTail.write := by
  refine ite (fun _ => pure rfl) fun _ => ite (fun _ => ?_) fun _ => ?_
  · refine (take_yields "File" tailSize).step ?_
    rintro taken _ ⟨rfl, -⟩
    exact pure (append_nil _)
  · refine (u64_encodes "File").yields fun rollingHash => ?_
    refine (fingerprint_encodes "File").yields fun fingerprint => ?_
    refine (u64_encodes "File").yields fun blockIndex => ?_
    refine (u64_encodes "File").yields fun offset => ?_
    refine pure ?_
    simp only [write, append_assoc, append_nil]

theorem ChunkDescription.encodes (blockSize : Nat) : Encodes (ChunkDescription.reader blockSize) ChunkDescription.write := by
  refine (u64_encodes _).yields fun length => ?_
  refine ite (fun zero => ?_) fun _ => ite (fun _ => malformed_yields _ _) fun _ => ?_
  · obtain rfl := zero
    refine (u64_encodes "File").yields fun length => ?_
    exact pure (congrArg (leBytes 8 0 ++ ·) (append_nil _))
  · refine ((u64_encodes "File").optional _).yields fun firstBlockIndex => ?_
    refine (ChunkTail.encodes _).yields fun tail => ?_
    refine pure ?_
    simp only [write, append_assoc, append_nil]

theorem ChunkDescription.write_nonempty (chunk : ChunkDescription) : 0 < chunk.write.length := by
  cases chunk <;> simp only [write, length_append, length_leBytes] <;> omega

theorem FilePacket.exhausts (blockSize : Nat) : Restores (reader blockSize) writeBody := by
  refine step (nameReader_yields _) ?_
  rintro name _ ⟨rfl, shortName⟩
  refine (u64_encodes _).exhausts fun quickRollingHash => ?_
  refine (fingerprint_encodes _).exhausts fun fingerprint => ?_
  refine step (number_yields _ 1) ?_
  rintro optionCount _ ⟨rfl, few⟩
  refine step (fingerprints_yields _ optionCount "option") ?_
  rintro optionHashes _ ⟨rfl, rfl⟩
  refine get_bind fun c packet c' ran => ?_
  obtain ⟨chunks, _, read, ran⟩ := bind_eq_ok.mp ran
  obtain ⟨rfl, -⟩ := pure_eq_ok.mp ran
  rw [toEnd_exhausts (ChunkDescription.encodes _) ChunkDescription.write_nonempty read]
  simp only [writeBody, take_of_length_le (show name.length ≤ 65535 by omega),
    take_of_length_le (show optionHashes.length ≤ 255 by omega), append_assoc]

/-! ### Any packet -/

namespace PacketBody
variable {packetType : PacketType} {bytes : List UInt8} {context : ParseContext} {body : PacketBody}

theorem of_map {α : Type} {reader : BodyReader α} {make : α → PacketBody} (parsed : (reader.run bytes).map make = .ok body)
    (exhausts : Restores reader fun packet => (make packet).writeBody)
    (typed : ∀ packet, (make packet).packetType = packetType) : body.writeBody = bytes ∧ body.packetType = packetType := by
  rcases ran : reader.run bytes with error | packet
  · rw [ran] at parsed
    cases parsed
  · rw [ran] at parsed
    obtain rfl := Except.ok.inj parsed
    exact ⟨run_spells exhausts ran, typed packet⟩

/-- A body writes the bytes it was parsed from, under the type it was parsed as. -/
theorem writeBody_parse (parsed : parse packetType bytes context = .ok body) :
    body.writeBody = bytes ∧ body.packetType = packetType := by
  cases packetType with
  | creator | comment | link | unixPermissions | fatPermissions | unknown signature =>
    cases parsed
    exact ⟨rfl, rfl⟩
  | start => exact of_map parsed (StartPacket.exhausts _) fun _ => rfl
  | data => exact of_map parsed DataPacket.exhausts fun _ => rfl
  | externalData => exact of_map parsed ExternalDataPacket.exhausts fun _ => rfl
  | cauchyMatrix => exact of_map parsed CauchyMatrixPacket.exhausts fun _ => rfl
  | sparseRandomMatrix => exact of_map parsed SparseRandomMatrixPacket.exhausts fun _ => rfl
  | explicitMatrix =>
    unfold parse at parsed
    dsimp only at parsed
    split at parsed
    · cases parsed
    · exact of_map parsed (ExplicitMatrixPacket.exhausts _) fun _ => rfl
  | fftMatrix => exact of_map parsed FftMatrixPacket.exhausts fun _ => rfl
  | recoveryData => exact of_map parsed RecoveryDataPacket.exhausts fun _ => rfl
  | recoveryExternalData => exact of_map parsed RecoveryExternalDataPacket.exhausts fun _ => rfl
  | file =>
    unfold parse at parsed
    dsimp only at parsed
    split at parsed
    · cases parsed
    · exact of_map parsed (FilePacket.exhausts _) fun _ => rfl
  | directory => exact of_map parsed DirectoryPacket.exhausts fun _ => rfl
  | root => exact of_map parsed RootPacket.exhausts fun _ => rfl

end PacketBody

namespace Packet
variable {fingerprint : Hash} {data : List UInt8} {offset : Nat} {context : ParseContext} {packet : Packet}

/-- What an accepted packet says of the bytes it stands in front of. -/
theorem parse_eq_ok (parsed : parse fingerprint data offset context = .ok packet) :
    ∃ header, PacketHeader.parse data offset = .ok header ∧ header.length ≤ data.length ∧
      fingerprint ((data.take header.length).drop hashedFrom) = header.hash ∧
      packet.inputSetId = header.inputSetId ∧ packet.hash = header.hash ∧ packet.length = header.length ∧
      packet.body.packetType = header.packetType ∧ packet.body.writeBody = (data.take header.length).drop headerSize := by
  unfold parse at parsed
  split at parsed
  · cases parsed
  rename_i header headed
  split_ifs at parsed with long
  dsimp only at parsed
  split at parsed
  · cases parsed
  have hashed : fingerprint ((data.take header.length).drop hashedFrom) = header.hash := by
    simp_all [PacketHeader.validateHash]
  refine ⟨header, headed, Nat.le_of_not_lt long, hashed, ?_⟩
  cases parsed
  split
  · rename_i body read
    obtain ⟨spelled, typed⟩ := PacketBody.writeBody_parse read
    exact ⟨rfl, rfl, rfl, typed, spelled⟩
  · exact ⟨rfl, rfl, rfl, rfl, rfl⟩

/-- A packet writes the bytes it was parsed from. -/
theorem toBytes_parse_take (parsed : parse fingerprint data offset context = .ok packet) :
    packet.toBytes = data.take packet.length := by
  obtain ⟨header, headed, long, -, id, hash, length, typed, spelled⟩ := parse_eq_ok parsed
  have size : headerSize ≤ header.length := by
    obtain ⟨-, -, size, rfl⟩ := PacketHeader.parse_eq_ok.mp headed
    exact size
  have inside : data.take headerSize = (data.take header.length).take headerSize := by
    rw [take_take, Nat.min_eq_left size]
  unfold toBytes
  rw [id, hash, length, typed, spelled, PacketHeader.write_parse headed, inside, take_append_drop]

/-- The length and the hash of a packet are those of its body. -/
structure Sound (fingerprint : Hash) (packet : Packet) : Prop where
  length : packet.length = headerSize + packet.body.writeBody.length
  hash : packet.hash = computePacketHash fingerprint packet.length packet.inputSetId packet.body.packetType packet.body.writeBody

/-- The bytes a header hash covers. -/
theorem drop_toBytes (packet : Packet) : packet.toBytes.drop hashedFrom =
    leBytes 8 packet.length ++ packet.inputSetId.toList ++ packet.body.packetType.signature.toList ++ packet.body.writeBody := by
  have front : (magic ++ packet.hash.toList).length = hashedFrom := by
    rw [length_append, Vector.length_toList]
    rfl
  simp only [toBytes, PacketHeader.write, append_assoc]
  rw [← append_assoc, ← front, drop_left]

theorem length_toBytes (packet : Packet) : packet.toBytes.length = headerSize + packet.body.writeBody.length := by
  rw [toBytes, length_append, PacketHeader.length_write]

theorem sound_parse (parsed : parse fingerprint data offset context = .ok packet) : Sound fingerprint packet := by
  have bytes := toBytes_parse_take parsed
  obtain ⟨header, headed, long, hashed, id, hash, length, typed, spelled⟩ := parse_eq_ok parsed
  refine ⟨?_, ?_⟩
  · rw [← length_toBytes, bytes, length_take, length, Nat.min_eq_left long]
  · unfold computePacketHash
    rw [← drop_toBytes, bytes, length, hashed, hash]

theorem Sound.long (sound : Sound fingerprint packet) : headerSize ≤ packet.length := by
  rw [sound.length]
  exact Nat.le_add_right _ _

theorem sound_new (fingerprint : Hash) (inputSetId : InputSetId) (body : PacketBody) : Sound fingerprint (new fingerprint inputSetId body) :=
  ⟨rfl, rfl⟩

/-- A new packet of another body with the same bytes is the same packet with that body. -/
theorem Sound.new_eq (sound : Sound fingerprint packet) {body : PacketBody} (spelled : body.writeBody = packet.body.writeBody)
    (typed : body.packetType = packet.body.packetType) : new fingerprint packet.inputSetId body = { packet with body := body } := by
  unfold new
  dsimp only
  rw [spelled, typed, ← sound.length, ← sound.hash]

/-- What a header says of a packet. -/
def header (packet : Packet) : PacketHeader := ⟨packet.hash, packet.length, packet.inputSetId, packet.body.packetType⟩

/-- A packet is accepted if its header is read, its bytes are there and its hash is right. -/
theorem parse_ok {header : PacketHeader} (headed : PacketHeader.parse data offset = .ok header) (long : header.length ≤ data.length)
    (hashed : fingerprint ((data.take header.length).drop hashedFrom) = header.hash) (context : ParseContext) :
    ∃ packet, parse fingerprint data offset context = .ok packet ∧ packet.header = header := by
  have checked : header.validateHash fingerprint (data.take header.length) offset = .ok () := by
    simp_all [PacketHeader.validateHash]
  have accepted : ∃ packet, parse fingerprint data offset context = .ok packet := by
    unfold parse
    rw [headed]
    dsimp only
    rw [if_neg (Nat.not_lt.mpr long), checked]
    exact ⟨_, rfl⟩
  obtain ⟨packet, parsed⟩ := accepted
  obtain ⟨header', headed', -, -, id, hash, length, typed, -⟩ := parse_eq_ok parsed
  obtain rfl := Except.ok.inj (headed.symm.trans headed')
  refine ⟨packet, parsed, ?_⟩
  unfold Packet.header
  rw [id, hash, length, typed]

/-- A sound packet that its header can describe is accepted, with any bytes behind it. -/
theorem Sound.parse_toBytes (sound : Sound fingerprint packet) (small : packet.length < 256 ^ 8) (offset : Nat)
    (context : ParseContext) (tail : List UInt8) : ∃ packet', parse fingerprint (packet.toBytes ++ tail) offset context = .ok packet' ∧
      packet'.toBytes = packet.toBytes := by
  have length : packet.toBytes.length = packet.length := (length_toBytes packet).trans sound.length.symm
  have headed := PacketHeader.parse_write ⟨packet.hash, packet.length, packet.inputSetId, packet.body.packetType⟩
    (by have := sound.length; dsimp only; omega) small offset (packet.body.writeBody ++ tail)
  rw [← append_assoc] at headed
  have taken : (packet.toBytes ++ tail).take packet.length = packet.toBytes := take_left' length
  have hashed : fingerprint (((packet.toBytes ++ tail).take packet.length).drop hashedFrom) = packet.hash := by
    rw [taken, drop_toBytes, sound.hash]
    rfl
  have long : packet.length ≤ (packet.toBytes ++ tail).length := by
    rw [length_append]
    omega
  obtain ⟨packet', parsed, same⟩ := parse_ok headed long hashed context
  refine ⟨packet', parsed, ?_⟩
  have length' : packet'.length = packet.length := congrArg PacketHeader.length same
  rw [toBytes_parse_take parsed, length']
  exact taken

end Packet
end Rarpar.Par3

import Rarpar.Par3.PacketScanner
import Rarpar.Par3.ScanRoundTrip

namespace Rarpar.Par3
open Bytes Resync List Nat Option Search
variable {carrier : Carrier} {fingerprint : Hash} {start : Nat}

/-! Each poll of the scanner goes on along one walk over the carrier. -/

namespace ScanReadAhead
variable {readAhead : ScanReadAhead}

/-- The buffer holds what stands in the carrier. -/
def Reads (carrier : Carrier) (readAhead : ScanReadAhead) : Prop :=
  ∃ count, readAhead.bytes = (carrier.data.drop readAhead.offset).take count

/-- What is read stands in the carrier. -/
theorem readAt_spec (reads : readAhead.Reads carrier) (offset size : Nat) :
    (∃ count ≤ size, (readAhead.readAt carrier offset size).1 = (carrier.data.drop offset).take count) ∧
      (readAhead.readAt carrier offset size).2.Reads carrier := by
  have slice (start : Nat) (low : start ≤ offset) (count : Nat) :
      ∃ fewer ≤ size, ((((carrier.data.drop start).take count).drop (offset - start)).take size) = (carrier.data.drop offset).take fewer := by
    refine ⟨min size (count - (offset - start)), min_le_left _ _, ?_⟩
    rw [drop_take, drop_drop, take_take, Nat.add_sub_cancel' low]
  unfold readAt
  dsimp only
  split
  · exact ⟨slice offset (le_refl _) _, ⟨_, rfl⟩⟩
  · rename_i inside
    obtain ⟨count, bytes⟩ := reads
    refine ⟨?_, ⟨count, bytes⟩⟩
    rw [bytes]
    exact slice readAhead.offset (by omega) count

/-- Bytes read so far, from a start on. -/
def Stands (carrier : Carrier) (start : Nat) (bytes : List UInt8) : Prop := bytes = (carrier.data.drop start).take bytes.length

theorem Stands.append {count : Nat} {bytes more : List UInt8} (stands : Stands carrier start bytes)
    (next : more = (carrier.data.drop (start + bytes.length)).take count) : Stands carrier start (bytes ++ more) := by
  have more' : more = ((carrier.data.drop start).drop bytes.length).take more.length := by
    simp_all
  unfold Stands at stands ⊢
  rw [length_append, take_add, ← stands, ← more']

/-- A part of what was read. -/
theorem Stands.part {bytes : List UInt8} (stands : Stands carrier start bytes) (i size : Nat) :
    Stands carrier (start + i) ((bytes.drop i).take size) := by
  have slice : (bytes.drop i).take size = (carrier.data.drop (start + i)).take (min size (bytes.length - i)) := by
    conv => lhs; rw [stands]
    rw [drop_take, drop_drop, take_take]
  unfold Stands
  rw [slice, length_take, take_eq_take_iff]
  omega

theorem readUntil_spec (need size fuel : Nat) {bytes : List UInt8} (reads : readAhead.Reads carrier)
    (stands : Stands carrier start bytes) (fits : bytes.length ≤ size) (enough : need ≤ bytes.length + fuel) :
    let result := readUntil carrier start need size fuel readAhead bytes
    Stands carrier start result.1 ∧ result.1.length ≤ size ∧ result.2.1.Reads carrier ∧
      (result.2.2 = false → need ≤ result.1.length) := by
  induction fuel generalizing readAhead bytes with
  | zero => exact ⟨stands, fits, reads, fun _ => enough⟩
  | succ fuel ih =>
    obtain ⟨⟨count, short, more⟩, reads'⟩ := readAt_spec reads (start + bytes.length) (size - bytes.length)
    unfold readUntil
    split_ifs with missing
    · split
      · grind
      · rename_i bytes' next some read
        rw [read] at more reads'
        dsimp only at more
        have length := congrArg length more
        rw [length_take] at length
        have positive : 0 < bytes'.length := length_pos_iff.mpr fun empty => some (by rw [empty])
        refine ih reads' (stands.append more) ?_ ?_
        · rw [length_append]
          omega
        · rw [length_append]
          omega
    · grind

end ScanReadAhead

/-- A packet with room for what stands before its payload. -/
def longEnough (header : PacketHeader) : Bool := headerSize + prefixLen header.packetType ≤ header.length

/-- The entries a scanner takes from a place on. -/
abbrev Path (fingerprint : Hash) (carrier : Carrier) : Nat → List (Nat × PacketHeader) → Prop :=
  Walk (findMagic carrier.data)
    (fun place => (packetAt fingerprint carrier.limits.maxPacketLen carrier.data place).filter longEnough) PacketHeader.length 8

/-- The part of a candidate that was read stands in the carrier. -/
structure Candidate.Reads (carrier : Carrier) (candidate : Candidate) : Prop where
  parsed : PacketHeader.parse (carrier.data.drop candidate.offset) candidate.offset = .ok candidate.header
  within : candidate.header.length ≤ carrier.limits.maxPacketLen
  inside : candidate.offset + candidate.header.length ≤ carrier.data.length
  long : longEnough candidate.header = true
  started : headerSize ≤ candidate.consumed
  consumed : candidate.consumed ≤ candidate.header.length
  hashed : candidate.hashed = ((carrier.data.drop candidate.offset).take candidate.consumed).drop hashedFrom
  retained : prefixLen candidate.header.packetType = 0 → candidate.retained = (carrier.data.drop candidate.offset).take candidate.consumed

/-- An authenticated packet stands in the carrier. -/
structure Authenticated.Proven (fingerprint : Hash) (carrier : Carrier) (authenticated : Authenticated) : Prop where
  packet : packetAt fingerprint carrier.limits.maxPacketLen carrier.data authenticated.offset = some authenticated.header
  long : longEnough authenticated.header = true
  retained : prefixLen authenticated.header.packetType = 0 →
    authenticated.retained = (carrier.data.drop authenticated.offset).take authenticated.header.length

namespace PacketScanner
variable {scanner after : PacketScanner} {rest : List (Nat × PacketHeader)}

/-- The scanner stands where this rest of the walk begins. -/
structure Tracks (fingerprint : Hash) (carrier : Carrier) (scanner : PacketScanner) (rest : List (Nat × PacketHeader)) : Prop where
  reads : scanner.readAhead.Reads carrier
  candidate : ∀ candidate, scanner.candidate = some candidate → candidate.offset = scanner.offset ∧ candidate.Reads carrier
  authenticated : ∀ authenticated, scanner.authenticated = some authenticated →
    scanner.candidate = none ∧ authenticated.offset = scanner.offset ∧ authenticated.Proven fingerprint carrier
  path : Path fingerprint carrier scanner.offset rest

/-- A scanner between two candidates. -/
theorem Tracks.idle (reads : scanner.readAhead.Reads carrier) (fresh : scanner.candidate = none)
    (fresh' : scanner.authenticated = none) (path : Path fingerprint carrier scanner.offset rest) :
    Tracks fingerprint carrier scanner rest :=
  ⟨reads, fun _ some => absurd (fresh.symm.trans some) nofun, fun _ some => absurd (fresh'.symm.trans some) nofun, path⟩

/-- A round goes on along the walk: a packet it returns is the next entry, and it ends at the end of the walk. -/
def Follows (fingerprint : Hash) (carrier : Carrier) (start : Nat) (rest : List (Nat × PacketHeader)) : Round → Prop
  | .continues after => Tracks fingerprint carrier after rest ∧ start < after.offset ∧ start < carrier.data.length ∧
      after.candidate = none ∧ after.authenticated = none
  | .returns (.ok (.packet packet)) after => ∃ header rest', rest = (packet.offset, header) :: rest' ∧ packet.length = header.length ∧
      packet.hash = header.hash ∧ Tracks fingerprint carrier after rest'
  | .returns (.ok .end) after => rest = [] ∧ Tracks fingerprint carrier after rest
  | .returns _ after => Tracks fingerprint carrier after rest

variable {header : PacketHeader} {data : List UInt8} {authenticated : Authenticated}

/-- The magic sequence of a header is found at once. -/
theorem findMagic_of_parse {place offset : Nat}
    (parsed : PacketHeader.parse (data.drop place) offset = .ok header) : findMagic data place = some place := by
  rw [findMagic_eq]
  exact firstFrom_self magic_ne_nil (decide_eq_true (PacketHeader.parse_eq_ok.mp parsed).2.1)

theorem contentsOf_proven (proven : authenticated.Proven fingerprint carrier) :
    ∃ contents, contentsOf fingerprint authenticated = .ok contents ∧
      (IngestedPacket.mk contents authenticated.offset authenticated.header.length).hash = authenticated.header.hash := by
  unfold contentsOf
  dsimp only
  split
  · rename_i metadata
    obtain ⟨-, packet, parsed, same, -⟩ := candidate_of_packetAt (fun _ => none) proven.packet
    unfold parseCandidate at parsed
    rw [Nat.add_sub_cancel_left, ← proven.retained metadata] at parsed
    have parsed : Packet.parse fingerprint authenticated.retained authenticated.offset .new = .ok packet := parsed
    rw [parsed]
    exact ⟨_, rfl, congrArg PacketHeader.hash same⟩
  · exact ⟨_, rfl, rfl⟩
  · exact ⟨_, rfl, rfl⟩

/-- A packet that is offered is the next entry of the walk; one that is refused stays so. -/
theorem admitPacket_follows (reads : scanner.readAhead.Reads carrier) (fresh : scanner.candidate = none)
    (place : authenticated.offset = scanner.offset) (proven : authenticated.Proven fingerprint carrier)
    (path : Path fingerprint carrier scanner.offset rest) :
    Follows fingerprint carrier scanner.offset rest (admitPacket fingerprint carrier scanner authenticated) := by
  obtain ⟨contents, content, hash⟩ := contentsOf_proven proven
  unfold admitPacket
  dsimp only
  split
  · exact .idle reads fresh rfl path
  split
  · refine ⟨reads, fun _ some => absurd (fresh.symm.trans some) nofun, fun authenticated' same => ?_, path⟩
    obtain rfl := some.inj same
    exact ⟨fresh, place, proven⟩
  · have parsed := (packetAt_eq_some_iff.mp proven.packet).1
    have judged : (packetAt fingerprint carrier.limits.maxPacketLen carrier.data authenticated.offset).filter longEnough =
        some authenticated.header := filter_eq_some_iff.mpr ⟨proven.packet, proven.long⟩
    rw [← place] at path
    obtain ⟨rest', rfl, behind⟩ := path.of_accept (findMagic_of_parse parsed) judged
    rw [content]
    exact ⟨authenticated.header, rest', rfl, rfl, hash, .idle reads fresh rfl behind⟩

variable {candidate : Candidate}

/-- Feeding a candidate goes on with the bytes of the carrier. -/
theorem feedCandidate_spec {fuel : Nat} {readAhead : ScanReadAhead} (reads : readAhead.Reads carrier)
    (read : candidate.Reads carrier) (enough : candidate.header.length ≤ candidate.consumed + fuel) :
    let result := feedCandidate carrier fuel readAhead candidate
    result.1.Reads carrier ∧ result.2.1.Reads carrier ∧ result.2.1.offset = candidate.offset ∧
      (result.2.2 = false → result.2.1.consumed = result.2.1.header.length) := by
  induction fuel generalizing readAhead candidate with
  | zero => exact ⟨reads, read, rfl, fun _ => le_antisymm read.consumed enough⟩
  | succ fuel ih =>
    unfold feedCandidate
    dsimp only
    split
    · rename_i incomplete
      obtain ⟨⟨count, short, more⟩, reads'⟩ := ScanReadAhead.readAt_spec reads (candidate.offset + candidate.consumed)
        (min (candidate.header.length - candidate.consumed) carrier.stripe)
      split
      · grind
      · rename_i bytes next some fed
        rw [fed] at more reads'
        dsimp only at more reads'
        have length := congrArg length more
        rw [length_take] at length
        have positive : 0 < bytes.length := length_pos_iff.mpr fun empty => some (by rw [empty])
        have inside := read.inside
        have started := read.started
        have before : ((carrier.data.drop candidate.offset).take candidate.consumed).length = candidate.consumed := by
          grind
        have stands : ScanReadAhead.Stands carrier candidate.offset ((carrier.data.drop candidate.offset).take candidate.consumed) := by
          unfold ScanReadAhead.Stands
          rw [before]
        have grown : ScanReadAhead.Stands carrier candidate.offset ((carrier.data.drop candidate.offset).take candidate.consumed ++ bytes) :=
          stands.append (by rw [before]; exact more)
        unfold ScanReadAhead.Stands at grown
        rw [length_append, before] at grown
        refine ih reads' ⟨read.parsed, read.within, inside, read.long, ?_, ?_, ?_, ?_⟩ ?_
        · dsimp only
          omega
        · dsimp only
          omega
        · dsimp only
          have hashed : hashedFrom ≤ candidate.consumed := le_trans (by decide) started
          rw [read.hashed, ← grown, drop_append_of_le_length (by rw [before]; exact hashed)]
        · intro metadata
          rw [if_pos metadata, read.retained metadata, grown]
        · dsimp only
          omega
    · rename_i complete
      exact ⟨reads, read, rfl, fun _ => Nat.le_antisymm read.consumed (Nat.le_of_not_lt complete)⟩

/-- A candidate that is read to its end is a packet of the walk, or it is stepped over. -/
theorem hashCandidate_follows (reads : scanner.readAhead.Reads carrier) (place : candidate.offset = scanner.offset)
    (fresh : scanner.authenticated = none) (read : candidate.Reads carrier) (path : Path fingerprint carrier scanner.offset rest) :
    Follows fingerprint carrier scanner.offset rest (hashCandidate fingerprint carrier scanner candidate) := by
  obtain ⟨reads', read', place', complete⟩ := feedCandidate_spec reads read (le_add_left _ _)
  unfold hashCandidate
  split
  · rename_i readAhead candidate' fed
    rw [fed] at reads' read' place'
    refine ⟨reads', fun other same => ?_, fun _ some => absurd (fresh.symm.trans some) nofun, path⟩
    obtain rfl := some.inj same
    exact ⟨place'.trans place, read'⟩
  · rename_i readAhead candidate' fed
    rw [fed] at reads' read' place' complete
    dsimp only at reads' read' place' complete
    have complete := complete rfl
    have hashed := read'.hashed
    rw [complete] at hashed
    have parsed := read'.parsed
    have size := complete ▸ read'.started
    have inside := read'.inside
    rw [place] at place'
    split_ifs with other
    · have judged : (packetAt fingerprint carrier.limits.maxPacketLen carrier.data candidate'.offset).filter longEnough = none := by
        rw [filter_eq_none_iff]
        intro header valid
        obtain ⟨parsed', -, -, checked⟩ := packetAt_eq_some_iff.mp valid
        obtain rfl := Except.ok.inj (parsed.symm.trans parsed')
        exact absurd (hashed ▸ checked) other
      have found := findMagic_of_parse parsed
      rw [← place'] at path
      unfold rejectCandidate
      dsimp only
      split
      · exact .idle reads' rfl fresh (place' ▸ path)
      · refine ⟨.idle reads' rfl fresh (path.of_refuse found judged), ?_, ?_, rfl, fresh⟩
        · dsimp only
          omega
        · have size48 : headerSize = 48 := rfl
          omega
    · have proven : Authenticated.Proven fingerprint carrier ⟨candidate'.header, candidate'.offset, candidate'.retained, candidate'.head⟩ := by
        refine ⟨packetAt_eq_some_iff.mpr ⟨parsed, read'.within, inside, ?_⟩, read'.long, fun metadata => ?_⟩
        · exact hashed ▸ not_not.mp other
        · exact (read'.retained metadata).trans (by rw [complete])
      exact admitPacket_follows reads' rfl place' proven path

/-- A search goes on along the walk, or it ends at a candidate that stands there. -/
def Finds (fingerprint : Hash) (carrier : Carrier) (start : Nat) (rest : List (Nat × PacketHeader)) : SearchResult → Prop
  | .round round => Follows fingerprint carrier start rest round
  | .found candidate after => start ≤ after.offset ∧ after.readAhead.Reads carrier ∧ candidate.offset = after.offset ∧
      after.authenticated = none ∧ candidate.Reads carrier ∧ Path fingerprint carrier after.offset rest

theorem Follows.earlier {start' : Nat} {round : Round} (follows : Follows fingerprint carrier start' rest round)
    (early : start ≤ start') : Follows fingerprint carrier start rest round := by
  cases round with
  | continues after =>
    obtain ⟨tracks, moved, inside, fresh⟩ := follows
    exact ⟨tracks, by omega, by omega, fresh⟩
  | returns result after => rcases result with e | (packet | offset | _) <;> exact follows

variable {bytes : List UInt8}

theorem openCandidate_reads (opened : openCandidate carrier scanner header bytes = (.ok candidate, after))
    (parsed : PacketHeader.parse (carrier.data.drop scanner.offset) scanner.offset = .ok header)
    (within : header.length ≤ carrier.limits.maxPacketLen) (inside : scanner.offset + header.length ≤ carrier.data.length)
    (long : longEnough header = true) (read : bytes = (carrier.data.drop scanner.offset).take headerSize) :
    candidate.Reads carrier ∧ candidate.offset = scanner.offset ∧ after = { scanner with requests := scanner.requests + 1 } := by
  have size := le_trans (le_add_right _ _) (of_decide_eq_true long)
  unfold openCandidate at opened
  dsimp only at opened
  generalize (if prefixLen header.packetType = 0 then header.length else 0) + packetOverheadBytes = cost at opened
  split at opened
  · cases opened
  split at opened
  · cases opened
    refine ⟨⟨parsed, within, inside, long, le_refl _, size, ?_, ?_⟩, rfl, rfl⟩
    · rw [read]
    · grind
  · cases opened

theorem openCandidate_error {e : EngineError}
    (opened : openCandidate carrier scanner header bytes = (.error e, after)) :
    ∃ requests, after = { scanner with requests := requests } := by
  unfold openCandidate at opened
  dsimp only at opened
  generalize (if prefixLen header.packetType = 0 then header.length else 0) + packetOverheadBytes = cost at opened
  split at opened
  · cases opened
    exact ⟨_, rfl⟩
  split at opened
  · cases opened
  · cases opened
    exact ⟨_, rfl⟩

/-- The header at a magic sequence. -/
theorem readHeader_finds (reads : scanner.readAhead.Reads carrier) (fresh : scanner.candidate = none)
    (fresh' : scanner.authenticated = none) (path : Path fingerprint carrier scanner.offset rest)
    (found : findMagic carrier.data scanner.offset = some scanner.offset)
    (stands : ScanReadAhead.Stands carrier scanner.offset bytes) (fits : bytes.length ≤ headerSize)
    (room : scanner.offset + headerSize ≤ carrier.data.length) :
    Finds fingerprint carrier scanner.offset rest (readHeader carrier scanner bytes) := by
  obtain ⟨stands', fits', reads', filled⟩ := ScanReadAhead.readUntil_spec headerSize headerSize headerSize reads stands fits (Nat.le_add_left _ _)
  unfold readHeader
  split
  · rename_i bytes' readAhead read
    rw [read] at reads'
    exact Tracks.idle reads' fresh fresh' path
  rename_i bytes' readAhead read
  rw [read] at stands' fits' reads' filled
  dsimp only at stands' fits' reads' filled ⊢
  have length := Nat.le_antisymm fits' (filled rfl)
  unfold ScanReadAhead.Stands at stands'
  rw [length] at stands'
  have headed (header : PacketHeader) : PacketHeader.parse bytes' scanner.offset = .ok header ↔
      PacketHeader.parse (carrier.data.drop scanner.offset) scanner.offset = .ok header := by
    rw [stands']
    exact PacketHeader.parse_take (Nat.le_refl _) _
  -- a candidate that is ruled out is none of the walk
  have refuse (other : ∀ header, packetAt fingerprint carrier.limits.maxPacketLen carrier.data scanner.offset = some header →
      longEnough header = false) (readAhead : ScanReadAhead) (reads : readAhead.Reads carrier) :
      Follows fingerprint carrier scanner.offset rest (.continues { scanner with readAhead := readAhead, offset := scanner.offset + 8 }) := by
    have size48 : headerSize = 48 := rfl
    refine ⟨.idle reads fresh fresh' (path.of_refuse found ?_), ?_, by omega, fresh, fresh'⟩
    · simp_all
    · dsimp only
      omega
  split
  · rename_i bad
    refine refuse (fun header valid => ?_) _ reads'
    exact absurd (bad.symm.trans ((headed header).mpr (packetAt_eq_some_iff.mp valid).1)) nofun
  rename_i header parsed
  have parsed := (headed header).mp parsed
  have only (header' : PacketHeader) (valid : packetAt fingerprint carrier.limits.maxPacketLen carrier.data scanner.offset = some header') :
      header' = header := Except.ok.inj ((packetAt_eq_some_iff.mp valid).1.symm.trans parsed)
  split
  · rename_i outside
    refine refuse (fun header' valid => absurd ?_ outside) _ reads'
    obtain ⟨-, within, inside, -⟩ := packetAt_eq_some_iff.mp valid
    rw [only header' valid] at within inside
    exact ⟨within, by omega⟩
  rename_i accepted
  obtain ⟨within, inside⟩ := not_not.mp accepted
  split_ifs with short
  · refine refuse (fun header' valid => ?_) _ reads'
    rw [only header' valid]
    exact decide_eq_false (Nat.not_le.mpr short)
  have short := decide_eq_true (Nat.le_of_not_lt short)
  split
  · rename_i e next opened
    obtain ⟨requests, rfl⟩ := openCandidate_error opened
    exact Tracks.idle reads' fresh fresh' path
  · rename_i candidate' next opened
    obtain ⟨read', place, rfl⟩ := openCandidate_reads opened parsed within (by dsimp only; omega) short stands'
    exact ⟨Nat.le_refl _, reads', place, fresh', read', path⟩

theorem Finds.earlier {start' : Nat} {result : SearchResult} (finds : Finds fingerprint carrier start' rest result)
    (early : start ≤ start') : Finds fingerprint carrier start rest result := by
  cases result with
  | round round => exact Follows.earlier finds early
  | found candidate after => exact ⟨le_trans early finds.1, finds.2⟩

variable {buffer : List UInt8}

section
variable (stands : ScanReadAhead.Stands carrier start buffer)
include stands

/-- A window of what was read is a window of the carrier. -/
theorem window_iff {i : Nat} (inside : i + 8 ≤ buffer.length) :
    ((buffer.drop i).take 8 = magic) = (occursAt magic carrier.data (start + i) = true) := by
  unfold occursAt
  rw [stands, drop_take, take_take, drop_drop, decide_eq_true_eq, min_eq_left (by omega)]
  rfl

theorem magicWindow_none (none : magicWindow buffer = none) {i : Nat} (inside : i + 8 ≤ buffer.length) :
    occursAt magic carrier.data (start + i) = false := by
  have here := find?_eq_none.mp none i (mem_range.mpr (by omega))
  rw [decide_eq_true_eq, window_iff stands inside] at here
  exact Bool.eq_false_iff.mpr here

theorem magicWindow_some {i : Nat}
    (found : magicWindow buffer = some i) : i + 8 ≤ buffer.length ∧ findMagic carrier.data start = some (start + i) := by
  obtain ⟨here, inside, before⟩ := find?_range_eq_some.mp found
  have inside := mem_range.mp inside
  rw [decide_eq_true_eq, window_iff stands (by omega)] at here
  refine ⟨by omega, ?_⟩
  rw [findMagic_eq]
  refine (firstFrom_eq_some_iff magic_ne_nil).mpr ⟨le_add_right _ _, here, fun j low high => ?_⟩
  obtain ⟨k, rfl⟩ := Nat.exists_eq_add_of_le low
  have other := before k (by omega)
  rw [Bool.not_eq_true', decide_eq_false_iff_not, window_iff stands (by omega)] at other
  exact Bool.eq_false_iff.mpr other

end

/-- Nothing is found in fewer than eight bytes. -/
theorem findMagic_short (short : data.length < start + 8) : findMagic data start = none := by
  rw [findMagic_eq]
  exact firstFrom_short magic_ne_nil short

theorem findMagic_onward {place : Nat} (found : findMagic data start = some place) : start ≤ place := by
  rw [findMagic_eq] at found
  exact ((firstFrom_eq_some_iff magic_ne_nil).mp found).1

/-- Nothing is taken from fewer bytes than a header has. -/
theorem path_short (path : Path fingerprint carrier start rest) (short : carrier.data.length < start + headerSize) : rest = [] := by
  refine path.eq_nil findMagic_onward fun place later => ?_
  rw [filter_eq_none_iff]
  intro header valid
  have long := (PacketHeader.parse_eq_ok.mp (packetAt_eq_some_iff.mp valid).1).1
  have size48 : headerSize = 48 := rfl
  rw [length_drop] at long
  omega

theorem search_finds (tracks : Tracks fingerprint carrier scanner rest) (fresh : scanner.candidate = none)
    (fresh' : scanner.authenticated = none) : Finds fingerprint carrier scanner.offset rest (search carrier scanner) := by
  have size48 : headerSize = 48 := rfl
  have ended (other : PacketScanner) (reads : other.readAhead.Reads carrier) (candidate : other.candidate = none)
      (authenticated : other.authenticated = none) (behind : carrier.data.length ≤ other.offset) (empty : rest = []) :
      Follows fingerprint carrier scanner.offset rest (.returns (.ok .end) other) := by
    refine ⟨empty, .idle reads candidate authenticated ?_⟩
    rw [empty]
    exact .stop (findMagic_short (by omega))
  unfold search
  split
  · rename_i behind
    exact ended scanner tracks.reads fresh fresh' behind (path_short tracks.path (by omega))
  dsimp only
  have wide : headerSize ≤ if scanner.atPacketBoundary = true then headerSize else carrier.stripe := by
    split
    · exact le_refl _
    · exact carrier.stripe_long
  generalize (if scanner.atPacketBoundary = true then headerSize else carrier.stripe) = searchSize at wide ⊢
  split_ifs with short
  · exact ended _ tracks.reads fresh fresh' (le_refl _) (path_short tracks.path (by omega))
  have empty : ScanReadAhead.Stands carrier scanner.offset [] := rfl
  obtain ⟨stands, fits, reads, filled⟩ := ScanReadAhead.readUntil_spec 8 (min _ searchSize) 8
    tracks.reads empty (zero_le _) (le_add_left _ _)
  split
  · rename_i bytes readAhead read
    rw [read] at reads
    exact Tracks.idle reads fresh fresh' tracks.path
  rename_i bytes readAhead read
  rw [read] at stands fits reads filled
  dsimp only at stands fits reads filled
  have filled := filled rfl
  split
  · rename_i free
    refine ⟨.idle reads fresh fresh' ?_, ?_, by omega, fresh, fresh'⟩
    · refine tracks.path.of_next ?_
      dsimp only
      rw [findMagic_eq, findMagic_eq]
      refine (firstFrom_skip magic_ne_nil (by omega) fun j low high => ?_).symm
      obtain ⟨k, rfl⟩ := Nat.exists_eq_add_of_le low
      exact magicWindow_none stands free (by omega)
    · dsimp only
      omega
  · rename_i found window
    obtain ⟨within, first⟩ := magicWindow_some stands window
    have again : findMagic carrier.data (scanner.offset + found) = some (scanner.offset + found) := by
      rw [findMagic_eq] at first ⊢
      exact firstFrom_self magic_ne_nil ((firstFrom_eq_some_iff magic_ne_nil).mp first).2.1
    have path := tracks.path.of_next (again.trans first.symm)
    split_ifs with short
    · exact ended _ reads fresh fresh' (le_refl _) (path_short path (by omega))
    · refine Finds.earlier (readHeader_finds reads fresh fresh' path again (stands.part found headerSize) ?_ ?_) (le_add_right _ _)
      · grind
      · dsimp only at short ⊢
        omega

end PacketScanner
end Rarpar.Par3

import Rarpar.Par3.PacketScannerWalk

namespace Rarpar.Par3
open Resync List PacketScanner
variable {carrier : Carrier} {fingerprint : Hash} {rest : List (Nat × PacketHeader)}

/-! The packets a scanner hands out over any number of polls, against those of one scan. -/

namespace PacketScanner
variable {scanner : PacketScanner}

section
variable (tracks : Tracks fingerprint carrier scanner rest)
include tracks

theorem round_follows :
    Follows fingerprint carrier scanner.offset rest (round fingerprint carrier scanner) := by
  unfold round
  split
  · rename_i authenticated waiting
    obtain ⟨fresh, place, proven⟩ := tracks.authenticated authenticated waiting
    exact admitPacket_follows tracks.reads fresh place proven tracks.path
  rename_i fresh'
  split
  · rename_i candidate pending
    obtain ⟨place, read⟩ := tracks.candidate candidate pending
    exact hashCandidate_follows tracks.reads place fresh' read tracks.path
  · rename_i fresh
    have finds := search_finds tracks fresh fresh'
    split
    · rename_i round searched
      rw [searched] at finds
      exact finds
    · rename_i candidate next searched
      rw [searched] at finds
      obtain ⟨early, reads, place, fresh'', read, path⟩ := finds
      exact (hashCandidate_follows reads place fresh'' read path).earlier early

/-- A poll returns, and what it returns goes on along the walk. -/
theorem rounds_follow {fuel : Nat} (positive : 0 < fuel)
    (enough : carrier.data.length < scanner.offset + fuel) : ∃ result after, rounds fingerprint carrier fuel scanner = some (result, after) ∧
      Follows fingerprint carrier scanner.offset rest (.returns result after) := by
  induction fuel generalizing scanner with
  | zero => exact absurd positive (Nat.lt_irrefl 0)
  | succ fuel ih =>
    have follows := round_follows tracks
    unfold rounds
    split
    · rename_i result after returned
      rw [returned] at follows
      exact ⟨result, after, rfl, follows⟩
    · rename_i after continued
      rw [continued] at follows
      obtain ⟨tracks', moved, inside, -⟩ := follows
      obtain ⟨result, last, ran, follows⟩ := ih tracks' (by omega) (by omega)
      exact ⟨result, last, ran, follows.earlier (Nat.le_of_lt moved)⟩

theorem poll_follows : ∃ result after, poll fingerprint carrier scanner = some (result, after) ∧
    Follows fingerprint carrier scanner.offset rest (.returns result after) :=
  rounds_follow tracks (Nat.succ_pos _) (by omega)

end

/-- The packets among what polls returned. -/
def packetsOf (results : List (Except EngineError ScanEvent)) : List IngestedPacket :=
  results.filterMap fun result => match result with
    | .ok (.packet packet) => some packet
    | _ => none

/-- Polls that neither hand out a packet nor end the scan: a byte is missing, or a budget or a limit refuses. -/
def interruptions (results : List (Except EngineError ScanEvent)) : Nat :=
  results.countP fun result => match result with
    | .ok (.packet _) => false
    | .ok .end => false
    | _ => true

def Ended (results : List (Except EngineError ScanEvent)) : Prop := .ok .end ∈ results

end PacketScanner

/-- What the claim of a scan compares: the offset, the length and the hash of a packet. -/
def IngestedPacket.identity (packet : IngestedPacket) : Nat × Nat × Fingerprint := (packet.offset, packet.length, packet.hash)

def identity (entry : Nat × PacketHeader) : Nat × Nat × Fingerprint := (entry.1, entry.2.length, entry.2.hash)

namespace PacketScanner
variable {scanner : PacketScanner}

/-- What polls hand out of the entries that lie ahead, and what they leave of them. -/
structure Hands (rest rest' : List (Nat × PacketHeader)) (results : List (Except EngineError ScanEvent)) (count : Nat) : Prop where
  all : rest.map identity = (packetsOf results).map IngestedPacket.identity ++ rest'.map identity
  ended : Ended results → rest' = []
  going : ¬ Ended results → count = (packetsOf results).length + interruptions results

section
variable {rest' : List (Nat × PacketHeader)} {results : List (Except EngineError ScanEvent)} {count : Nat}
  (hands : Hands rest rest' results count)
include hands

/-- A poll that interrupts the scan leaves the walk where it is. -/
theorem Hands.interrupted {result : Except EngineError ScanEvent} (silent : packetsOf [result] = [])
    (counted : interruptions [result] = 1) (goes : ¬ Ended [result]) : Hands rest rest' (result :: results) (count + 1) := by
  have packets : packetsOf ([result] ++ results) = packetsOf results := by
    unfold packetsOf at silent ⊢
    rw [filterMap_append, silent, nil_append]
  have more : interruptions ([result] ++ results) = 1 + interruptions results := by
    unfold interruptions at counted ⊢
    rw [countP_append, counted]
  have still : Ended ([result] ++ results) ↔ Ended results := by
    unfold Ended
    rw [mem_append]
    exact or_iff_right goes
  rw [← singleton_append]
  refine ⟨packets ▸ hands.all, fun done => hands.ended (still.mp done), fun unended => ?_⟩
  have := hands.going (mt still.mpr unended)
  rw [packets, more]
  omega

theorem Hands.packet {packet : IngestedPacket} {header : PacketHeader} (length : packet.length = header.length)
    (hash : packet.hash = header.hash) :
    Hands ((packet.offset, header) :: rest) rest' (.ok (.packet packet) :: results) (count + 1) := by
  have still : Ended (.ok (.packet packet) :: results) ↔ Ended results := by simp [Ended]
  refine ⟨?_, fun done => hands.ended (still.mp done), fun unended => ?_⟩
  · have same : identity (packet.offset, header) = packet.identity := by
      unfold identity IngestedPacket.identity
      rw [length, hash]
    rw [map_cons, hands.all, same]
    rfl
  · have := hands.going (mt still.mpr unended)
    show count + 1 = (packetsOf results).length + 1 + interruptions (.ok _ :: results)
    have same : interruptions (.ok (.packet packet) :: results) = interruptions results := rfl
    omega

end

/-- Any number of polls hands out the next entries of the walk, in order; all of them once the scan ended. -/
theorem polls_follow (count : Nat) (tracks : Tracks fingerprint carrier scanner rest) : ∃ results after rest',
    polls fingerprint carrier count scanner = some (results, after) ∧ Tracks fingerprint carrier after rest' ∧
      Hands rest rest' results count := by
  induction count generalizing scanner rest with
  | zero => exact ⟨[], scanner, rest, rfl, tracks, rfl, nofun, fun _ => rfl⟩
  | succ count ih =>
    obtain ⟨result, next, polled, follows⟩ := poll_follows tracks
    -- what the other polls do, once this one stands on the walk again
    have step (rest₁ : List _) (tracks₁ : Tracks fingerprint carrier next rest₁) :
        ∃ results after rest', polls fingerprint carrier (count + 1) scanner = some (result :: results, after) ∧
          Tracks fingerprint carrier after rest' ∧ Hands rest₁ rest' results count := by
      obtain ⟨results, after, rest', ran, facts⟩ := ih tracks₁
      refine ⟨results, after, rest', ?_, facts⟩
      unfold polls
      rw [polled]
      dsimp only
      rw [ran]
    rcases result with e | (packet | offset | _)
    · obtain ⟨results, after, rest', ran, tracks', hands⟩ := step rest follows
      exact ⟨_, after, rest', ran, tracks', hands.interrupted rfl rfl (by simp [Ended])⟩
    · obtain ⟨header, rest₁, rfl, length, hash, tracks₁⟩ := follows
      obtain ⟨results, after, rest', ran, tracks', hands⟩ := step rest₁ tracks₁
      exact ⟨_, after, rest', ran, tracks', hands.packet length hash⟩
    · obtain ⟨results, after, rest', ran, tracks', hands⟩ := step rest follows
      exact ⟨_, after, rest', ran, tracks', hands.interrupted rfl rfl (by simp [Ended])⟩
    · obtain ⟨rfl, tracks₁⟩ := follows
      obtain ⟨results, after, rest', ran, tracks', hands⟩ := step [] tracks₁
      have none : rest' = [] := map_eq_nil_iff.mp (append_eq_nil_iff.mp hands.all.symm).2
      exact ⟨_, after, rest', ran, tracks', hands.all, fun _ => none, fun unended => absurd mem_cons_self unended⟩

theorem tracks_new (path : Path fingerprint carrier 0 rest) : Tracks fingerprint carrier new rest where
  reads := ⟨0, rfl⟩
  candidate := nofun
  authenticated := nofun
  path := path

/-- Every carrier has a walk. -/
theorem path_total (fingerprint : Hash) (carrier : Carrier) : ∃ entries, Path fingerprint carrier 0 entries ∧
    entries.length ≤ carrier.data.length := by
  refine Walk.total ?_ ?_ ?_ 0
  · intro pos place found
    rw [findMagic_eq] at found
    obtain ⟨later, occurs, -⟩ := (Search.firstFrom_eq_some_iff magic_ne_nil).mp found
    have inside := Search.occursAt_length occurs magic_ne_nil
    have size : magic.length = 8 := rfl
    exact ⟨later, by omega⟩
  · exact Nat.succ_pos 7
  · intro place header judged
    have valid := (Option.filter_eq_some_iff.mp judged).1
    obtain ⟨-, -, size, shape⟩ := PacketHeader.parse_eq_ok.mp (packetAt_eq_some_iff.mp valid).1
    rw [shape]
    exact Nat.lt_of_lt_of_le (by decide) size

end PacketScanner

/-- A carrier of one packet, under a hash that is zero. -/
def oneByOne (packet : Packet) (answers : Nat → Nat) : Carrier :=
  ⟨packet.toBytes, answers, fun _ => false, fun _ _ => true, 48, 48, .default, 1000, by decide, by decide⟩

end Rarpar.Par3

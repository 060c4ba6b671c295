import Rarpar.Par3.Authentication

namespace Rarpar.Par3.AuthenticatingWriter
open List Nat PacketHeader
variable {fingerprint : Hash} {options : WriterOptions} {done : List (List UInt8)} {pending bytes : List UInt8}
  {header : PacketHeader} {writer after : AuthenticatingWriter}

/-! Whole calls: the writer accepts the packets that close one behind the other, however they are cut. -/

theorem Closed.closes {rest : List (List UInt8)} {packet : List UInt8} (closed : Closed fingerprint options (done ++ packet :: rest)) :
    ∃ header, Closes fingerprint options done packet header := by
  generalize whole : done ++ packet :: rest = all at closed
  induction closed generalizing rest with
  | nil => exact absurd whole (by simp)
  | @snoc before bytes header closed closes ih =>
    rcases eq_nil_or_concat rest with rfl | ⟨front, last, rfl⟩
    · obtain ⟨rfl, same⟩ := append_inj' whole rfl
      obtain rfl := singleton_inj.mp same
      exact ⟨header, closes⟩
    · rw [concat_eq_append, ← cons_append, ← append_assoc] at whole
      exact ih (append_inj' whole rfl).1

/-- The loop only ever closes packets that close. -/
theorem authenticate_closed {fuel : Nat} (stands : Stands options done pending writer) (closed : Closed fingerprint options done)
    (enough : bytes.length ≤ fuel) (ran : authenticate fingerprint options fuel writer bytes = .ok () after) :
    ∃ done' pending', Closed fingerprint options done' ∧ Stands options done' pending' after ∧
      done'.flatten ++ pending' = done.flatten ++ pending ++ bytes ∧ after.account = writer.account := by
  induction fuel generalizing done pending writer bytes with
  | zero =>
    obtain rfl := length_eq_zero_iff.mp (le_zero.mp enough)
    cases ran
    exact ⟨done, pending, closed, stands, (append_nil _).symm, rfl⟩
  | succ fuel ih =>
    cases bytes with
    | nil =>
      cases ran
      exact ⟨done, pending, closed, stands, (append_nil _).symm, rfl⟩
    | cons byte rest =>
      have takes := feed_takes fingerprint stands (cons_ne_nil byte rest)
      unfold authenticate at ran
      split at ran
      · rename_i take next fed
        have answers := feed_answers fingerprint stands (byte :: rest)
        rw [fed] at takes answers
        obtain ⟨moved, same⟩ := answers
        have positive := takes.positive
        have shorter : ((byte :: rest).drop take).length ≤ fuel := by
          rw [length_drop]
          omega
        have split (done : List (List UInt8)) : done.flatten ++ (pending ++ (byte :: rest).take take) ++ (byte :: rest).drop take =
            done.flatten ++ pending ++ (byte :: rest) := by
          rw [append_assoc, append_assoc, take_append_drop, ← append_assoc]
        cases moved with
        | stays stands =>
          grind
        | closes closes stands =>
          obtain ⟨done', pending', closed', stands', bytes, account⟩ := ih stands (.snoc closed closes) shorter ran
          refine ⟨done', pending', closed', stands', bytes.trans ?_, account.trans same⟩
          rw [append_nil, flatten_append, flatten_singleton, split]
      · cases ran

/-- A start of a packet that closes is one the writer goes on with. -/
theorem Closes.viable {packet more : List UInt8} (closes : Closes fingerprint options done packet header) (start : pending ++ more = packet) :
    Viable fingerprint options done pending := by
  subst start
  rcases lt_or_ge pending.length headerSize with short | long
  · exact .inl short
  · refine .inr ⟨header, closes.opens.shorter long, ?_, fun complete => ?_⟩
    · rw [closes.length, length_append]
      exact le_add_right _ _
    · have length := closes.length
      rw [complete, length_append] at length
      obtain rfl := length_eq_zero_iff.mp (show more.length = 0 by omega)
      rw [append_nil] at closes
      exact closes

/-- What a round takes is part of the next packet. -/
theorem Takes.inside_packet {packet more rest : List UInt8} {take : Nat} (takes : Takes pending bytes take)
    (closes : Closes fingerprint options done packet header) (start : packet ++ rest = pending ++ bytes ++ more) :
    ∃ left, pending ++ bytes.take take ++ left = packet := by
  have size := (parse_eq_ok.mp closes.opens.parsed).1
  have fits : (pending ++ bytes.take take).length ≤ packet.length := by
    rw [length_append, length_take_of_le takes.inside]
    rcases lt_or_ge pending.length headerSize with short | long
    · have := takes.header short
      omega
    · -- both start with the same header
      have same : pending.take headerSize = packet.take headerSize := by
        have cut := congrArg (List.take headerSize) start
        rw [take_append_of_le_length size, append_assoc, take_append_of_le_length long] at cut
        exact cut.symm
      have parsed : parse _ 0 = .ok header :=
        (parse_take (le_refl _) 0).mpr closes.opens.parsed
      rw [← same] at parsed
      have bound := takes.packet long header ((parse_take (le_refl _) 0).mp parsed)
      rw [closes.length] at bound
      exact bound
  have front : pending ++ bytes.take take <+: packet ++ rest := by
    rw [start]
    exact ⟨bytes.drop take ++ more, by rw [append_assoc, ← append_assoc (bytes.take take), take_append_drop, append_assoc]⟩
  exact prefix_of_prefix_length_le front (prefix_append _ _) fits

/-- The writer stands among these packets with exactly the bytes `rest` of them to come. -/
inductive Awaits (options : WriterOptions) : List (List UInt8) → AuthenticatingWriter → List UInt8 → Prop
  | intro {done more : List (List UInt8)} {pending rest : List UInt8} {writer : AuthenticatingWriter}
      (stands : Stands options done pending writer) (ahead : more.flatten = pending ++ rest) : Awaits options (done ++ more) writer rest

variable {packets : List (List UInt8)} {rest : List UInt8} {answers : List (Except WriteError Nat)} {call : Write}

section Granted
variable (granted : ∀ call bytes, options.reserve call bytes = true) (closed : Closed fingerprint options packets)
include granted closed

/-- One round goes on with the bytes of packets that close. -/
theorem feed_awaits (awaits : Awaits options packets writer (bytes ++ rest)) (nonempty : bytes ≠ []) :
    ∃ take next, feed fingerprint options writer bytes = (take, .ok () next) ∧ 0 < take ∧
      Awaits options packets next (bytes.drop take ++ rest) := by
  obtain @⟨done, more, pending, _, _, stands, ahead⟩ := awaits
  have takes := feed_takes fingerprint stands nonempty
  cases more with
  | nil => exact absurd ahead (by simp [nonempty])
  | cons packet more =>
    obtain ⟨header, closes⟩ := closed.closes
    rw [← append_assoc] at ahead
    obtain ⟨left, inside⟩ := takes.inside_packet closes ahead
    obtain ⟨next, fed, moved⟩ := (feed_answers fingerprint stands bytes).ok granted (closes.viable inside)
    have round : feed fingerprint options writer bytes = ((feed fingerprint options writer bytes).1, .ok () next) := Prod.ext rfl fed
    generalize (feed fingerprint options writer bytes).1 = take at round takes inside moved
    refine ⟨take, next, round, takes.positive, ?_⟩
    have split : pending ++ bytes ++ rest = pending ++ bytes.take take ++ (bytes.drop take ++ rest) := by
      rw [append_assoc, append_assoc pending, ← append_assoc (bytes.take take), take_append_drop]
    cases moved with
    | stays stands => exact ⟨stands, ahead.trans split⟩
    | @closes header' closes' stands =>
      -- the packet that was closed is the whole next one
      have long := (parse_eq_ok.mp closes'.opens.parsed).1
      have parsed := closes.opens.parsed
      rw [← inside] at parsed
      obtain rfl := Except.ok.inj (closes'.opens.parsed.symm.trans ((parse_append long left).mp parsed))
      have length := closes.length
      rw [← inside, closes'.length, @length_append _ _ left] at length
      obtain rfl := length_eq_zero_iff.mp (show left.length = 0 by omega)
      rw [append_nil] at inside
      rw [inside] at stands split
      rw [split, flatten_cons, append_cancel_left_eq] at ahead
      rw [← singleton_append, ← append_assoc]
      exact ⟨stands, ahead⟩

/-- The loop goes through all bytes of packets that close. -/
theorem authenticate_ok {fuel : Nat} (awaits : Awaits options packets writer (bytes ++ rest)) (enough : bytes.length ≤ fuel) :
    ∃ after, authenticate fingerprint options fuel writer bytes = .ok () after ∧ Awaits options packets after rest := by
  induction fuel generalizing writer bytes with
  | zero =>
    obtain rfl := length_eq_zero_iff.mp (le_zero.mp enough)
    exact ⟨writer, rfl, awaits⟩
  | succ fuel ih =>
    cases bytes with
    | nil => exact ⟨writer, rfl, awaits⟩
    | cons byte behind =>
      obtain ⟨take, next, fed, positive, awaits⟩ := feed_awaits granted closed awaits (cons_ne_nil byte behind)
      obtain ⟨after, ran, awaits⟩ := ih awaits (by rw [length_drop]; omega)
      refine ⟨after, ?_, awaits⟩
      unfold authenticate
      rw [fed]
      exact ran

end Granted

theorem stands_new : Stands options [] [] (new options) where
  packets := rfl
  nextPacket := rfl
  claimed := rfl
  header := fun _ => ⟨rfl, rfl⟩
  packet := fun long => absurd long (by decide)

/-- What is counted outside the packets does not matter for them. -/
theorem Stands.recount (stands : Stands options done pending writer) (written : Nat) (inner : List UInt8) :
    Stands options done pending { writer with written := written, inner := inner } :=
  ⟨stands.packets, stands.nextPacket, stands.claimed, stands.header, stands.packet⟩

theorem Awaits.recount (awaits : Awaits options packets writer rest) (written : Nat) (inner : List UInt8) :
    Awaits options packets { writer with written := written, inner := inner } rest := by
  obtain ⟨stands, ahead⟩ := awaits
  exact ⟨stands.recount written inner, ahead⟩

/-- The writer has passed on these packets and this start, and has counted all of it. -/
structure Counts (fingerprint : Hash) (options : WriterOptions) (done : List (List UInt8)) (pending : List UInt8)
    (writer : AuthenticatingWriter) : Prop where
  closed : Closed fingerprint options done
  stands : Stands options done pending writer
  inner : writer.inner = done.flatten ++ pending
  written : writer.written = writer.inner.length

theorem passed_eq {answer : Option Nat} (accepted : call.accepted = answer) :
    call.passed = call.bytes.take (answer.getD 0) := by
  rw [Write.passed, accepted]

theorem unrefused_cons {answer : Except WriteError Nat} :
    Unrefused (answer :: answers) ↔ (∀ e, .error (.refused e) ≠ answer) ∧ Unrefused answers := by
  simp only [Unrefused, mem_cons, not_or, forall_and]

theorem write_counts {count : Nat} (counts : Counts fingerprint options done pending writer)
    (wrote : write fingerprint options writer call = .ok count after) :
    ∃ done' pending', Counts fingerprint options done' pending' after ∧ after.inner = writer.inner ++ call.passed := by
  unfold write at wrote
  split at wrote
  · cases wrote
  rename_i count' accepted
  have length : (call.bytes.take count').length = count' := length_take_of_le (call.fits count' accepted)
  dsimp only at wrote
  split at wrote
  · cases wrote
  rename_i next ran
  obtain ⟨done', pending', closed, stands, bytes, account⟩ := authenticate_closed (counts.stands.recount writer.written _) counts.closed
    (le_of_eq length) ran
  cases wrote
  have written : next.written = writer.written := congrArg Prod.fst account
  have inner : next.inner = writer.inner ++ call.bytes.take count := congrArg Prod.snd account
  refine ⟨done', pending', ⟨closed, stands.recount _ _, ?_, ?_⟩, ?_⟩
  · show next.inner = _
    rw [inner, counts.inner, bytes]
  · show next.written + count = next.inner.length
    rw [written, inner, counts.written, length_append, length]
  · rw [passed_eq accepted]
    exact inner

/-- The bytes a sequence of calls passes on. -/
def passedOn (calls : List Write) : List UInt8 := calls.flatMap Write.passed

theorem writes_counts {calls : List Write} (counts : Counts fingerprint options done pending writer)
    (ran : writes fingerprint options writer calls = (after, answers)) (unrefused : Unrefused answers) :
    ∃ done' pending', Counts fingerprint options done' pending' after ∧ after.inner = writer.inner ++ passedOn calls := by
  induction calls generalizing writer done pending answers with
  | nil =>
    cases ran
    exact ⟨done, pending, counts, (append_nil _).symm⟩
  | cons call rest ih =>
    unfold writes at ran
    split at ran
    · rename_i count next wrote
      obtain ⟨done', pending', counts', inner⟩ := write_counts counts wrote
      cases ran
      obtain ⟨done'', pending'', counts'', inner'⟩ := ih counts' rfl (unrefused_cons.mp unrefused).2
      refine ⟨done'', pending'', counts'', ?_⟩
      rw [inner', inner, append_assoc]
      rfl
    · rename_i e next wrote
      cases ran
      have sink : call.accepted = none ∧ next = writer := by
        unfold write at wrote
        split at wrote
        · cases wrote
          exact ⟨‹_›, rfl⟩
        dsimp only at wrote
        split at wrote
        · cases wrote
          exact absurd rfl ((unrefused_cons.mp unrefused).1 _)
        · cases wrote
      obtain ⟨failed, rfl⟩ := sink
      obtain ⟨done'', pending'', counts'', inner'⟩ := ih counts rfl (unrefused_cons.mp unrefused).2
      refine ⟨done'', pending'', counts'', ?_⟩
      rw [inner', passedOn, passedOn, flatMap_cons, passed_eq failed]
      rfl

section Granted
variable (granted : ∀ call bytes, options.reserve call bytes = true) (closed : Closed fingerprint options packets)
include granted closed

theorem write_ok {count : Nat} (awaits : Awaits options packets writer (call.passed ++ rest))
    (accepted : call.accepted = some count) :
    ∃ after, write fingerprint options writer call = .ok count after ∧ Awaits options packets after rest := by
  rw [passed_eq accepted, Option.getD_some] at awaits
  obtain ⟨after, ran, awaits⟩ := authenticate_ok granted closed (awaits.recount writer.written (writer.inner ++ call.bytes.take count))
    (le_of_eq (length_take_of_le (call.fits count accepted)))
  refine ⟨{ after with written := after.written + count }, ?_, awaits.recount _ _⟩
  unfold write
  rw [accepted]
  dsimp only
  rw [ran]

theorem writes_ok {calls : List Write} (awaits : Awaits options packets writer (passedOn calls ++ rest)) :
    Unrefused (writes fingerprint options writer calls).2 ∧ Awaits options packets (writes fingerprint options writer calls).1 rest := by
  induction calls generalizing writer with
  | nil => exact ⟨nofun, awaits⟩
  | cons call calls ih =>
    rw [passedOn, flatMap_cons, append_assoc] at awaits
    unfold writes
    rcases accepted : call.accepted with _ | count
    · have wrote : write fingerprint options writer call = .error .sink writer := by
        unfold write
        rw [accepted]
      rw [passed_eq accepted] at awaits
      rw [wrote]
      exact ⟨unrefused_cons.mpr ⟨nofun, (ih awaits).1⟩, (ih awaits).2⟩
    · obtain ⟨next, wrote, awaits⟩ := write_ok granted closed awaits accepted
      rw [wrote]
      exact ⟨unrefused_cons.mpr ⟨nofun, (ih awaits).1⟩, (ih awaits).2⟩

end Granted

theorem Stands.finish_iff (stands : Stands options done pending writer) (expected : Nat) :
    finish writer expected = .ok () ↔ writer.written = expected ∧ pending = [] := by
  have clean : ¬ (writer.packet.isSome = true ∨ writer.header.length ≠ 0) ↔ pending = [] := by
    rcases lt_or_ge pending.length headerSize with short | long
    · obtain ⟨filled, none⟩ := stands.header short
      rw [none, filled, not_or, not_not, length_eq_zero_iff]
      exact ⟨And.right, fun empty => ⟨nofun, empty⟩⟩
    · obtain ⟨-, header, -, -, packet⟩ := stands.packet long
      rw [packet]
      refine ⟨fun bad => absurd (.inl rfl) bad, ?_⟩
      rintro rfl
      exact absurd long (by decide)
  unfold finish
  rw [← clean]
  split
  · grind
  grind

/-- Whole packets leave nothing pending. -/
theorem Awaits.finish (awaits : Awaits options packets writer []) (closed : Closed fingerprint options packets) :
    finish writer writer.written = .ok () := by
  obtain @⟨done, more, pending, _, _, stands, ahead⟩ := awaits
  refine (stands.finish_iff _).mpr ⟨rfl, ?_⟩
  rw [append_nil] at ahead
  cases more with
  | nil => exact ahead.symm
  | cons packet more =>
    obtain ⟨header, closes⟩ := closed.closes
    have size := (parse_eq_ok.mp closes.opens.parsed).1
    have longer : packet.length ≤ pending.length := by
      rw [← ahead, flatten_cons, length_append]
      exact le_add_right _ _
    obtain ⟨-, header', opens, incomplete, -⟩ := stands.packet (le_trans size longer)
    have parsed := opens.parsed
    rw [← ahead, flatten_cons] at parsed
    obtain rfl := Except.ok.inj (closes.opens.parsed.symm.trans ((parse_append size _).mp parsed))
    have length := closes.length
    omega

/-- What the writer accepts are packets that close, whatever the budget refuses. -/
theorem closed_of_finish (calls : List Write) (expected : Nat) (unrefused : Unrefused (writes fingerprint options (new options) calls).2)
    (finished : finish (writes fingerprint options (new options) calls).1 expected = .ok ()) :
    ∃ packets, Closed fingerprint options packets ∧ passedOn calls = packets.flatten ∧ (passedOn calls).length = expected := by
  obtain ⟨done, pending, counts, inner⟩ := writes_counts ⟨.nil, stands_new, rfl, rfl⟩ rfl unrefused
  obtain ⟨written, rfl⟩ := (counts.stands.finish_iff _).mp finished
  have inner : _ = passedOn calls := inner
  refine ⟨done, counts.closed, ?_, ?_⟩
  · rw [← inner, counts.inner, append_nil]
  · rw [← inner, ← counts.written, written]

/-- The writer accepts the calls and their end exactly if the bytes passed on are packets that close. -/
theorem finish_iff_closed (granted : ∀ call bytes, options.reserve call bytes = true) (calls : List Write) (expected : Nat) :
    (Unrefused (writes fingerprint options (new options) calls).2 ∧ finish (writes fingerprint options (new options) calls).1 expected = .ok ()) ↔
      ∃ packets, Closed fingerprint options packets ∧ passedOn calls = packets.flatten ∧ (passedOn calls).length = expected := by
  constructor
  · rintro ⟨unrefused, finished⟩
    exact closed_of_finish calls _ unrefused finished
  · rintro ⟨packets, closed, bytes, rfl⟩
    have awaits : Awaits options packets (new options) (passedOn calls ++ []) :=
      @Awaits.intro _ [] _ _ _ _ stands_new (by rw [bytes, append_nil]; rfl)
    obtain ⟨unrefused, ended⟩ := writes_ok granted closed awaits
    obtain ⟨done', pending', counts, inner⟩ := writes_counts ⟨.nil, stands_new, rfl, rfl⟩ rfl unrefused
    have finished := ended.finish closed
    rw [counts.written, inner] at finished
    exact ⟨unrefused, finished⟩

end Rarpar.Par3.AuthenticatingWriter

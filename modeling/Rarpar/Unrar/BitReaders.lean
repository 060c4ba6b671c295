import Rarpar.Unrar.BitReader
import Rarpar.Unrar.StreamingBits

namespace Rarpar.Unrar
open BitString Simulation Cursor

/-- One call on a bit reader. A byte span is lent and the first `count` bytes of it are committed
in one call, since nothing else may read in between. -/
inductive Call where
  | readBits (count : Nat)
  | readBits64 (count : Nat)
  | readByte
  | readByteOrZero
  | peek16Raw
  | peek16LeftAligned
  | consumeBits (count : Nat)
  | skipBits (count : Nat)
  | alignByte
  | byteSpan (min count : Nat)
  | hasBits
  | hasExactBits (bits : Nat)
deriving DecidableEq

inductive Answer where
  | number (value : Nat)
  | flag (value : Bool)
  | done
  | lent (span : Option (List UInt8 × Bool))
  | failed
deriving DecidableEq

/-- What a caller sees of a result, and the reader it is left with. -/
def answerOf {σ α : Type} (wrap : α → Answer) : EStateM.Result RarError σ α → Answer × σ
  | .ok value reader => (wrap value, reader)
  | .error _ reader => (.failed, reader)

namespace Call
variable {σ : Type} [BitRead σ]

/-- Lends a span and commits the first `count` bytes of it. -/
def lend (min count : Nat) : Reading σ (Option (List UInt8 × Bool)) := fun reader =>
  match BitRead.byteSpan min reader with
  | .ok (some lent) reader => (fun _ => some lent) <$> BitRead.consumeByteSpan count |>.run reader
  | result => result

def run (call : Call) (reader : σ) : Answer × σ :=
  match call with
  | .readBits count => answerOf .number (BitRead.readBits count reader)
  | .readBits64 count => answerOf .number (BitRead.readBits64 count reader)
  | .readByte => answerOf (.number ·.toNat) (BitRead.readByte reader)
  | .readByteOrZero => answerOf (.number ·.toNat) (BitRead.readByteOrZero reader)
  | .peek16Raw => answerOf .number (BitRead.peek16Raw reader)
  | .peek16LeftAligned => answerOf .number (BitRead.peek16LeftAligned reader)
  | .consumeBits count => answerOf (fun _ => .done) (BitRead.consumeBits count reader)
  | .skipBits count => answerOf (fun _ => .done) (BitRead.skipBits count reader)
  | .alignByte => answerOf (fun _ => .done) (BitRead.alignByte reader)
  | .byteSpan min count => answerOf .lent (lend min count reader)
  | .hasBits => answerOf .flag (BitRead.hasBits reader)
  | .hasExactBits bits => answerOf .flag (BitRead.hasExactBits bits reader)

/-- The counts a caller may ask for, and the bytes of a lent span it may commit. Spans are at most
as long as the smallest input buffer. -/
def allowed (call : Call) (reader : StreamingBitReader) : Bool :=
  match call with
  | .readBits count => decide (count ≤ 32)
  | .readBits64 count => decide (count ≤ 64)
  | .consumeBits count => decide (count ≤ 32)
  | .byteSpan min count =>
    decide (min ≤ StreamingBitReader.inputBufferSize + StreamingBitReader.straddleHeadroom) &&
      match BitRead.byteSpan min reader with
      | .ok (some (span, _)) _ => decide (count ≤ span.length)
      | _ => true
  | _ => true

/-- A skip of more than one step that fails. It is the one call after which the two readers stand
at different positions. -/
def parts (call : Call) (reader : StreamingBitReader) : Bool :=
  match call with
  | .skipBits count => decide (32 < count ∧ (call.run reader).1 = .failed)
  | _ => false

end Call

/-- A call, its answer and the position it leaves the reader at. -/
structure Entry where
  call : Call
  answer : Answer
  position : Nat
deriving DecidableEq

def transcript {σ : Type} [BitRead σ] : σ → List Call → List Entry
  | _, [] => []
  | reader, call :: rest =>
    ⟨call, (call.run reader).1, BitRead.position (call.run reader).2⟩ :: transcript (call.run reader).2 rest

/-- A sequence of allowed calls, which ends with a skip that parts the readers if it has one. -/
def allowedCalls : StreamingBitReader → List Call → Bool
  | _, [] => true
  | reader, call :: rest =>
    call.allowed reader && (rest.isEmpty || !call.parts reader) && allowedCalls (call.run reader).2 rest

/-- How an entry of the streaming reader compares with one of the slice reader over an input of
`total` bits. All is equal, but that a span may be a shorter one, that more than 57 bits may be
denied although they are there, and that a failed skip has consumed its whole steps. -/
def Entry.Matches (total : Nat) (streaming slice : Entry) : Prop :=
  streaming.call = slice.call ∧
    match streaming.call with
    | .byteSpan min _ =>
      streaming.position = slice.position ∧
        ((streaming.answer = .lent none ∧ slice.answer = .lent none) ∨
          ∃ span last whole, streaming.answer = .lent (some (span, last)) ∧ slice.answer = .lent (some (whole, true)) ∧
            span <+: whole ∧ (last = true → span = whole) ∧ (min ≤ span.length ∨ last = true))
    | .hasExactBits bits =>
      streaming.position = slice.position ∧
        ∃ here there, streaming.answer = .flag here ∧ slice.answer = .flag there ∧
          (here = true → there = true) ∧ (bits ≤ 57 → here = there)
    | .skipBits count =>
      streaming.answer = slice.answer ∧
        (streaming.position = slice.position ∨
          32 < count ∧ slice.answer = .failed ∧
            streaming.position = slice.position + 32 * ((total - slice.position) / 32))
    | _ => streaming.answer = slice.answer ∧ streaming.position = slice.position

section Steps
variable {σ : Type} {R : σ → Cursor → Prop} {α : Type}

theorem answerOf_agree {left : EStateM.Result RarError σ α} {right : EStateM.Result RarError Cursor α}
    (agree : Agree R left right) (wrap : α → Answer) :
    (answerOf wrap left).1 = (answerOf wrap right).1 ∧ R (answerOf wrap left).2 (answerOf wrap right).2 := by
  cases agree with
  | ok related => exact ⟨rfl, related⟩
  | error related => exact ⟨rfl, related⟩

/-- The calls that every reader answers as the cursor does. -/
def Call.Plain : Call → Prop
  | .readBits count => count ≤ 32
  | .readBits64 count => count ≤ 64
  | .consumeBits count => count ≤ 32
  | .skipBits _ | .byteSpan _ _ | .hasExactBits _ => False
  | _ => True

variable {c : Cursor}

theorem Call.run_plain [BitRead σ] [LawfulBitRead σ] (call : Call) {reader : σ} (plain : call.Plain)
    (reads : LawfulBitRead.Reads reader c) :
    (call.run reader).1 = (call.run c).1 ∧ LawfulBitRead.Reads (call.run reader).2 (call.run c).2 := by
  cases call with
  | readBits count => exact answerOf_agree (LawfulBitRead.readBits plain _ _ reads) _
  | readBits64 count => exact answerOf_agree (LawfulBitRead.readBits64 plain _ _ reads) _
  | readByte => exact answerOf_agree (LawfulBitRead.readByte _ _ reads) _
  | readByteOrZero => exact answerOf_agree (LawfulBitRead.readByteOrZero _ _ reads) _
  | peek16Raw => exact answerOf_agree (LawfulBitRead.peek16Raw _ _ reads) _
  | peek16LeftAligned => exact answerOf_agree (LawfulBitRead.peek16LeftAligned _ _ reads) _
  | consumeBits count => exact answerOf_agree (LawfulBitRead.consumeBits plain _ _ reads) _
  | skipBits count => exact plain.elim
  | alignByte => exact answerOf_agree (LawfulBitRead.alignByte _ _ reads) _
  | byteSpan min count => exact plain.elim
  | hasBits => exact answerOf_agree (LawfulBitRead.hasBits _ _ reads) _
  | hasExactBits bits => exact plain.elim

/-- The committed bytes of a span lie in the input. -/
def Call.Covered (c : Cursor) : Call → Prop
  | .byteSpan _ count => c.pos % 8 = 0 → 8 * count ≤ c.remaining
  | .skipBits _ | .hasExactBits _ => True
  | call => call.Plain

variable {min count : Nat}

theorem Call.run_lent [BitRead σ] {reader after final : σ} {span : List UInt8 × Bool}
    (lends : BitRead.byteSpan min reader = .ok (some span) after)
    (commits : BitRead.consumeByteSpan count after = .ok () final) :
    (Call.byteSpan min count).run reader = (.lent (some span), final) := by
  simp only [Call.run, Call.lend, lends, EStateM.run, Functor.map, EStateM.map, commits, answerOf]

theorem Call.run_declined [BitRead σ] {reader after : σ}
    (declines : BitRead.byteSpan min reader = .ok none after) :
    (Call.byteSpan min count).run reader = (.lent none, after) := by
  simp only [Call.run, Call.lend, declines, answerOf]

theorem Call.run_byteSpan (aligned : c.pos % 8 = 0) (fits : 8 * count ≤ c.remaining) :
    (Call.byteSpan min count).run c =
      (.lent (some (c.data.drop (c.pos / 8), true)), c.advance (8 * count) fits) :=
  Call.run_lent (congrArg (EStateM.Result.ok · c) (if_pos aligned)) (dif_pos fits)

theorem Call.run_byteSpan_unaligned (odd : c.pos % 8 ≠ 0) :
    (Call.byteSpan min count).run c = (.lent none, c) :=
  Call.run_declined (congrArg (EStateM.Result.ok · c) (if_neg odd))

variable {call : Call}

/-- The slice reader answers every call as the cursor does. -/
theorem BitReader.run_eq {r : BitReader} (covered : call.Covered c)
    (reads : BitReader.Reads r c) :
    (call.run r).1 = (call.run c).1 ∧ BitReader.Reads (call.run r).2 (call.run c).2 := by
  cases call with
  | skipBits count => exact answerOf_agree (BitReader.skipBits_simulates count _ _ reads) _
  | hasExactBits bits =>
    have agree : Agree BitReader.Reads (.ok (decide (r.bitsRemaining ≥ bits)) r : EStateM.Result RarError _ _)
        (.ok (decide (bits ≤ c.remaining)) c) := by
      rw [reads.bitsRemaining]
      exact .ok reads
    exact answerOf_agree agree .flag
  | byteSpan min count =>
    have span := congrArg (EStateM.Result.ok (ε := RarError) · r) reads.byteSpan
    by_cases aligned : c.pos % 8 = 0
    · have fits := covered aligned
      rw [if_pos aligned] at span
      rw [Call.run_byteSpan aligned fits, Call.run_lent span rfl]
      exact ⟨rfl, reads.consumeByteSpan aligned fits⟩
    · rw [if_neg aligned] at span
      rw [Call.run_byteSpan_unaligned aligned, Call.run_declined span]
      exact ⟨rfl, reads⟩
  | _ => exact Call.run_plain _ covered reads

theorem Entry.matches_of_plain (plain : call.Plain) (total : Nat) {left right : Answer} {here there : Nat}
    (answer : left = right) (position : here = there) : Entry.Matches total ⟨call, left, here⟩ ⟨call, right, there⟩ := by
  cases call with
  | skipBits count => exact plain.elim
  | byteSpan min count => exact plain.elim
  | hasExactBits bits => exact plain.elim
  | _ => exact ⟨rfl, answer, position⟩

/-- A call that the streaming reader answers in its own way. -/
def Call.Special : Call → Prop
  | .skipBits _ | .byteSpan _ _ | .hasExactBits _ => True
  | _ => False

theorem Call.plain_of_allowed {r : StreamingBitReader} (allowed : call.allowed r = true) :
    call.Plain ∨ call.Special := by
  cases call with
  | readBits count => exact .inl (show count ≤ 32 from of_decide_eq_true allowed)
  | readBits64 count => exact .inl (show count ≤ 64 from of_decide_eq_true allowed)
  | consumeBits count => exact .inl (show count ≤ 32 from of_decide_eq_true allowed)
  | skipBits count => exact .inr trivial
  | byteSpan min count => exact .inr trivial
  | hasExactBits bits => exact .inr trivial
  | _ => exact .inl trivial

theorem Call.covered_of_plain (plain : call.Plain) (c : Cursor) : call.Covered c := by
  cases call with
  | skipBits count => exact plain.elim
  | byteSpan min count => exact plain.elim
  | hasExactBits bits => exact plain.elim
  | _ => exact plain

/-- What a step of the streaming reader has to do with a step of the cursor. -/
structure StreamingBitReader.Steps (call : Call) (r : StreamingBitReader) (c : Cursor) : Prop where
  covered : call.Covered c
  matching : Entry.Matches (8 * c.data.length) ⟨call, (call.run r).1, BitRead.position (call.run r).2⟩
    ⟨call, (call.run c).1, BitRead.position (call.run c).2⟩
  still : call.parts r = false → StreamingBitReader.Reads (call.run r).2 (call.run c).2

namespace StreamingBitReader
variable {r : StreamingBitReader}

theorem Steps.of_run {answer ideal : Answer} {r' : StreamingBitReader} {c' : Cursor}
    (run : call.run r = (answer, r')) (cursor : call.run c = (ideal, c')) (covered : call.Covered c)
    (matching : Entry.Matches (8 * c.data.length) ⟨call, answer, r'.bitPos⟩ ⟨call, ideal, c'.pos⟩)
    (still : call.parts r = false → Reads r' c') : Steps call r c :=
  ⟨covered, by rw [run, cursor]; exact matching, by rw [run, cursor]; exact still⟩

theorem steps_skipBits (reads : Reads r c) (count : Nat) : Steps (.skipBits count) r c := by
  have run (result : EStateM.Result RarError StreamingBitReader Unit) (eq : skipBits count r = result) :
      (Call.skipBits count).run r = answerOf (fun _ => .done) result := by rw [← eq]; rfl
  have ideal (result : EStateM.Result RarError Cursor Unit) (eq : drop count c = result) :
      (Call.skipBits count).run c = answerOf (fun _ => .done) result := by rw [← eq]; rfl
  by_cases fits : count ≤ c.remaining
  · obtain ⟨r', skipped, after⟩ := (skipSteps_spec reads le_rfl).1 fits
    exact .of_run (run _ skipped) (ideal _ (drop_of_le fits)) trivial ⟨rfl, rfl, .inl after.position⟩ fun _ => after
  · have past := Nat.not_le.mp fits
    obtain ⟨e, r', skipped, after⟩ := (skipSteps_spec reads le_rfl).2 past
    have position : r'.bitPos = c.pos + 32 * (c.remaining / 32) := after.position
    refine .of_run (run _ skipped) (ideal _ (drop_of_lt past)) trivial ⟨rfl, rfl, ?_⟩ fun together => ?_
    · by_cases long : 32 < count
      · exact .inr ⟨long, rfl, position⟩
      · exact .inl (position.trans (show c.pos + 32 * (c.remaining / 32) = c.pos by omega))
    · have short : ¬ 32 < count := by
        intro long
        simp only [Call.parts, run _ skipped, answerOf, long, and_self, decide_true, Bool.true_eq_false] at together
      rwa [advance_congr 0 (by omega)] at after

theorem steps_hasExactBits (reads : Reads r c) (bits : Nat) : Steps (.hasExactBits bits) r c := by
  obtain ⟨answer, r', asked, after, sound, small⟩ := hasExactBits_spec reads bits
  have run : (Call.hasExactBits bits).run r = (.flag answer, r') := congrArg (answerOf .flag) asked
  exact .of_run run rfl trivial ⟨rfl, after.position, _, _, rfl, rfl, fun yes => decide_eq_true (sound yes), small⟩
    fun _ => after

theorem steps_byteSpan (reads : Reads r c) (allowed : (Call.byteSpan min count).allowed r = true) :
    Steps (.byteSpan min count) r c := by
  simp only [Call.allowed, Bool.and_eq_true, decide_eq_true_eq] at allowed
  obtain ⟨fits, within⟩ := allowed
  by_cases aligned : c.pos % 8 = 0
  · obtain ⟨span, last, r', lends, after, lent, first, whole, enough⟩ := byteSpan_spec reads aligned fits
    have le : count ≤ span.length := by
      have lends' : BitRead.byteSpan min r = .ok (some (span, last)) r' := lends
      simpa only [lends', decide_eq_true_eq] using within
    have inside : 8 * count ≤ c.remaining := by
      have shorter := first.length_le
      rw [List.length_drop] at shorter
      unfold remaining
      omega
    have final := after.consumeByteSpan aligned lent le inside
    exact .of_run (Call.run_lent lends rfl) (Call.run_byteSpan aligned inside) (fun _ => inside)
      ⟨rfl, final.position, .inr ⟨_, _, _, rfl, rfl, first, whole, enough⟩⟩ fun _ => final
  · have declines : BitRead.byteSpan min r = .ok none r := byteSpan_unaligned reads aligned min
    exact .of_run (Call.run_declined declines) (Call.run_byteSpan_unaligned aligned) (fun zero => absurd zero aligned)
      ⟨rfl, reads.position, .inl ⟨rfl, rfl⟩⟩ fun _ => reads

theorem steps (reads : Reads r c) (allowed : call.allowed r = true) : Steps call r c := by
  rcases Call.plain_of_allowed allowed with plain | special
  · obtain ⟨answer, after⟩ := Call.run_plain (σ := StreamingBitReader) call plain reads
    exact ⟨Call.covered_of_plain plain c,
      Entry.matches_of_plain plain _ answer (LawfulBitRead.position_eq after), fun _ => after⟩
  · cases call with
    | skipBits count => exact steps_skipBits reads count
    | hasExactBits bits => exact steps_hasExactBits reads bits
    | byteSpan min count => exact steps_byteSpan reads allowed
    | _ => exact special.elim

end StreamingBitReader

end Steps

/-- A cursor stays on its byte string. -/
theorem Call.run_data (call : Call) (c : Cursor) : (call.run c).2.data = c.data := by
  let Stays (a b : Cursor) : Prop := a = b ∧ a.data = c.data
  have take (count : Nat) : Simulates Stays (take count) (take count) := by
    rintro a _ ⟨rfl, same⟩
    unfold take
    split
    · exact .ok ⟨rfl, same⟩
    · exact .error ⟨rfl, same⟩
  have drop (count : Nat) : Simulates Stays (drop count) (drop count) := by
    rintro a _ ⟨rfl, same⟩
    unfold drop
    split
    · exact .ok ⟨rfl, same⟩
    · exact .error ⟨rfl, same⟩
  have peek : Simulates Stays peek peek := by
    rintro a _ ⟨rfl, same⟩
    unfold peek
    split
    · exact .error ⟨rfl, same⟩
    · exact .ok ⟨rfl, same⟩
  have final {α : Type} {program : Reading Cursor α} (stays : Simulates Stays program program) (wrap : α → Answer) :
      (answerOf wrap (program c)).2.data = c.data :=
    (answerOf_agree (stays c c ⟨rfl, rfl⟩) wrap).2.2
  cases call with
  | readBits count => exact final (take count) _
  | readBits64 count =>
    exact final (.ite (fun _ => take count) fun _ => (take _).bind fun _ => (take 32).bind fun _ => .pure _) _
  | readByte => exact final ((take 8).map UInt8.ofNat) _
  | readByteOrZero =>
    simp only [Call.run, BitRead.readByteOrZero]
    split <;> rfl
  | peek16Raw => exact final peek _
  | peek16LeftAligned => exact final (peek.map (· &&& 0xfffe)) _
  | consumeBits count => exact final (drop count) _
  | skipBits count => exact final (drop count) _
  | byteSpan min count =>
    by_cases aligned : c.pos % 8 = 0
    · have lends : (BitRead.byteSpan min : Reading Cursor _) c = .ok (some (c.data.drop (c.pos / 8), true)) c :=
        congrArg (EStateM.Result.ok · c) (if_pos aligned)
      simp only [Call.run, Call.lend, lends]
      exact final ((drop (8 * count)).map _) _
    · rw [Call.run_byteSpan_unaligned aligned]
  | alignByte => rfl
  | hasBits => rfl
  | hasExactBits bits => rfl

/-- The transcripts of the two readers, from states that stand at one cursor. -/
theorem transcripts_match {slice : BitReader} {streaming : StreamingBitReader} (calls : List Call)
    (here : BitReader.Reads slice c) (there : StreamingBitReader.Reads streaming c)
    (allowed : allowedCalls streaming calls = true) :
    transcript slice calls = transcript c calls ∧
      List.Forall₂ (Entry.Matches (8 * c.data.length)) (transcript streaming calls) (transcript c calls) := by
  induction calls generalizing slice streaming c with
  | nil => exact ⟨rfl, .nil⟩
  | cons call rest ih =>
    simp only [allowedCalls, Bool.and_eq_true] at allowed
    obtain ⟨⟨first, parting⟩, later⟩ := allowed
    have step := StreamingBitReader.steps there first
    obtain ⟨answer, after⟩ := BitReader.run_eq step.covered here
    have entry : (⟨call, (call.run slice).1, BitRead.position (call.run slice).2⟩ : Entry) =
        ⟨call, (call.run c).1, BitRead.position (call.run c).2⟩ := by
      rw [answer]
      exact congrArg _ after.position
    by_cases together : call.parts streaming = false
    · obtain ⟨equal, matching⟩ := ih after (step.still together) later
      rw [Call.run_data] at matching
      exact ⟨congrArg₂ List.cons entry equal, .cons step.matching matching⟩
    · have last : rest = [] := by simpa [together] using parting
      subst last
      exact ⟨congrArg (fun e => [e]) entry, .cons step.matching .nil⟩

/-- The two readers over one byte string: the slice reader reads the string's bits most significant
first, and the streaming reader follows it however the input is cut into reads. -/
theorem readers_match (data : List UInt8) (offered : Nat → Nat) (length : Nat) (calls : List Call)
    (allowed : allowedCalls (.withBuffer (.new data offered) length) calls = true) :
    transcript (BitReader.new data) calls = transcript (Cursor.start data) calls ∧
      List.Forall₂ (Entry.Matches (8 * data.length))
        (transcript (StreamingBitReader.withBuffer (.new data offered) length) calls)
        (transcript (BitReader.new data) calls) := by
  obtain ⟨ideal, matching⟩ := transcripts_match calls (BitReader.new_reads data)
    (StreamingBitReader.withBuffer_reads data offered length) allowed
  exact ⟨ideal, ideal ▸ matching⟩

theorem readers_match_short : allowedCalls (.withBuffer (.new [0xa5, 0x3c, 0x7e] fun _ => 0) 0)
      [.readBits 3, .peek16LeftAligned, .alignByte, .byteSpan 1 1, .readByteOrZero, .readByteOrZero, .skipBits 40] ∧
    transcript (BitReader.new [0xa5, 0x3c, 0x7e])
        [.readBits 3, .peek16LeftAligned, .alignByte, .byteSpan 1 1, .readByteOrZero, .readByteOrZero, .skipBits 40] =
      transcript (Cursor.start [0xa5, 0x3c, 0x7e])
        [.readBits 3, .peek16LeftAligned, .alignByte, .byteSpan 1 1, .readByteOrZero, .readByteOrZero, .skipBits 40] :=
  ⟨by decide +kernel, (readers_match _ (fun _ => 0) 0 _ (by decide +kernel)).1⟩

/-- The three calls on which the readers differ, each on a source that hands over single bytes. -/
theorem readers_differ :
    transcript (BitReader.new [1, 2, 3, 4]) [.skipBits 40] = [⟨.skipBits 40, .failed, 0⟩] ∧
      transcript (StreamingBitReader.withBuffer (.new [1, 2, 3, 4] fun _ => 0) 0) [.skipBits 40] =
        [⟨.skipBits 40, .failed, 32⟩] ∧
      transcript (BitReader.new (List.replicate 16 0)) [.hasExactBits 72] = [⟨.hasExactBits 72, .flag true, 0⟩] ∧
      transcript (StreamingBitReader.withBuffer (.new (List.replicate 16 0) fun _ => 0) 0) [.hasExactBits 72] =
        [⟨.hasExactBits 72, .flag false, 0⟩] ∧
      transcript (BitReader.new [1, 2]) [.byteSpan 1 0] = [⟨.byteSpan 1 0, .lent (some ([1, 2], true)), 0⟩] ∧
      transcript (StreamingBitReader.withBuffer (.new [1, 2] fun _ => 0) 0) [.byteSpan 1 0] =
        [⟨.byteSpan 1 0, .lent (some ([1], false)), 0⟩] := by
  decide +kernel

end Rarpar.Unrar

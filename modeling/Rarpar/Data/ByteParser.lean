import Mathlib.Data.List.Basic

namespace Rarpar.ByteParser
open List
variable {ε α β : Type}

/-! Parsers over a byte string, and what the bytes they consume have to do with their results. -/

/-- A place in a byte string. -/
structure Cursor where
  data : List UInt8
  pos : Nat
deriving DecidableEq

def Cursor.rest (c : Cursor) : List UInt8 := c.data.drop c.pos

def Cursor.remaining (c : Cursor) : Nat := c.data.length - c.pos

/-- The cursor behind so many more bytes. -/
def Cursor.skip (c : Cursor) (count : Nat) : Cursor := { c with pos := c.pos + count }

theorem Cursor.length_rest (c : Cursor) : c.rest.length = c.remaining := length_drop

theorem Cursor.rest_skip (c : Cursor) (count : Nat) : (c.skip count).rest = c.rest.drop count := by
  rw [rest, rest, drop_drop]
  rfl

variable {c c' : Cursor} {spells' : β → List UInt8 → Prop} {spells : α → List UInt8 → Prop} (error : ε)

/-- So many bytes as there are left are all that is left. -/
theorem Cursor.rest_eq {bytes : List UInt8} (consumed : c.rest = bytes ++ c'.rest)
    (all : bytes.length = c.remaining) : c.rest = bytes := by
  have total := congrArg length consumed
  rw [length_append, c.length_rest] at total
  have none : c'.rest = [] := eq_nil_of_length_eq_zero (by omega)
  rw [consumed, none, append_nil]

abbrev Parser (ε α : Type) := StateT Cursor (Except ε) α

/-- Every run that succeeds consumes bytes that stand in this relation to its result. -/
def Yields (parser : Parser ε α) (spells : α → List UInt8 → Prop) : Prop :=
  ∀ c a c', parser c = .ok (a, c') → ∃ bytes, c.rest = bytes ++ c'.rest ∧ spells a bytes

/-- The bytes are a result's encoding. -/
def Encodes (parser : Parser ε α) (encode : α → List UInt8) : Prop := Yields parser fun a bytes => bytes = encode a

theorem bind_eq_ok {parser : Parser ε α} {next : α → Parser ε β} {c'' : Cursor} {b : β} :
    (parser >>= next) c = .ok (b, c'') ↔ ∃ a c', parser c = .ok (a, c') ∧ next a c' = .ok (b, c'') := by
  show (Except.bind (parser c) fun found => next found.1 found.2) = _ ↔ _
  rcases parser c with error | ⟨a, c'⟩
  · exact ⟨nofun, fun ⟨_, _, ran, _⟩ => nomatch ran⟩
  · refine ⟨fun ran => ⟨a, c', rfl, ran⟩, ?_⟩
    rintro ⟨_, _, same, ran⟩
    cases same
    exact ran

theorem pure_eq_ok {a b : α} : (pure a : Parser ε α) c = .ok (b, c') ↔ a = b ∧ c = c' := by
  show Except.ok (a, c) = .ok (b, c') ↔ _
  rw [Except.ok.injEq, Prod.mk.injEq]

namespace Yields
variable {parser : Parser ε α}

theorem pure {a : α} (spelled : spells a []) : Yields (Pure.pure a : Parser ε α) spells := by
  intro c b c' ran
  obtain ⟨rfl, rfl⟩ := pure_eq_ok.mp ran
  exact ⟨[], rfl, spelled⟩

theorem throw : Yields (MonadExcept.throw error : Parser ε α) spells := by
  intro c a c' ran
  cases ran

/-- Read some bytes, then what comes behind them. -/
theorem step {next : α → Parser ε β} (first : Yields parser spells)
    (rest : ∀ a bytes, spells a bytes → Yields (next a) fun b tail => spells' b (bytes ++ tail)) :
    Yields (parser >>= next) spells' := by
  intro c b c'' ran
  obtain ⟨a, c', ran₁, ran₂⟩ := bind_eq_ok.mp ran
  obtain ⟨bytes, consumed, spelled⟩ := first c a c' ran₁
  obtain ⟨tail, consumed', spelled'⟩ := rest a bytes spelled c' b c'' ran₂
  refine ⟨bytes ++ tail, ?_, spelled'⟩
  rw [consumed, consumed', append_assoc]

theorem get_bind {next : Cursor → Parser ε α} (rest : ∀ c, Yields (next c) spells) : Yields (get >>= next) spells := by
  intro c a c' ran
  obtain ⟨_, _, got, ran⟩ := bind_eq_ok.mp ran
  cases got
  exact rest c c a c' ran

theorem ite {p : Prop} [Decidable p] {other : Parser ε α} (yes : p → Yields parser spells) (no : ¬ p → Yields other spells) :
    Yields (if p then parser else other) spells := by
  split
  · exact yes ‹p›
  · exact no ‹¬ p›

end Yields

/-! ### Parsers that read to the end -/

/-- Every run that succeeds has read all the bytes there are, and they stand in this relation to its result. -/
def Exhausts (parser : Parser ε α) (spells : α → List UInt8 → Prop) : Prop :=
  ∀ c a c', parser c = .ok (a, c') → spells a c.rest

/-- Every result of a run is of this kind. -/
def Returns (parser : Parser ε α) (kind : α → Prop) : Prop := ∀ c a c', parser c = .ok (a, c') → kind a

variable {kind : α → Prop}

theorem Returns.pure {a : α} (here : kind a) : Returns (Pure.pure a : Parser ε α) kind := by
  intro c b c' ran
  rw [← (pure_eq_ok.mp ran).1]
  exact here

theorem Returns.throw : Returns (MonadExcept.throw error : Parser ε α) kind := by
  intro c b c' ran
  cases ran

theorem Returns.ite {p : Prop} [Decidable p] {parser other : Parser ε α} (yes : p → Returns parser kind)
    (no : ¬ p → Returns other kind) : Returns (if p then parser else other) kind := by
  split
  · exact yes ‹p›
  · exact no ‹¬ p›

namespace Exhausts
variable {parser : Parser ε α}

theorem throw : Exhausts (MonadExcept.throw error : Parser ε α) spells := by
  intro c a c' ran
  cases ran

theorem ite {p : Prop} [Decidable p] {other : Parser ε α} (yes : p → Exhausts parser spells) (no : ¬ p → Exhausts other spells) :
    Exhausts (if p then parser else other) spells := by
  split
  · exact yes ‹p›
  · exact no ‹¬ p›

theorem get_bind {next : Cursor → Parser ε α} (rest : ∀ c a c', next c c = .ok (a, c') → spells a c.rest) :
    Exhausts (get >>= next) spells := by
  intro c a c' ran
  obtain ⟨_, _, got, ran⟩ := bind_eq_ok.mp ran
  cases got
  exact rest c a c' ran

/-- Read some bytes, then the rest. -/
theorem step {next : α → Parser ε β} (first : Yields parser spells)
    (rest : ∀ a bytes, spells a bytes → Exhausts (next a) fun b tail => spells' b (bytes ++ tail)) :
    Exhausts (parser >>= next) spells' := by
  intro c b c'' ran
  obtain ⟨a, c', ran₁, ran₂⟩ := bind_eq_ok.mp ran
  obtain ⟨bytes, consumed, spelled⟩ := first c a c' ran₁
  rw [consumed]
  exact rest a bytes spelled c' b c'' ran₂

/-- Nothing is left to read behind a parser that reads to the end. -/
theorem last {next : α → Parser ε β} (first : Exhausts parser spells)
    (rest : ∀ a bytes, spells a bytes → Returns (next a) fun b => spells' b bytes) : Exhausts (parser >>= next) spells' := by
  intro c b c'' ran
  obtain ⟨a, c', ran₁, ran₂⟩ := bind_eq_ok.mp ran
  exact rest a c.rest (first c a c' ran₁) c' b c'' ran₂

end Exhausts

/-! ### Sequences -/

/-- So many results of one parser. -/
def replicate (item : Parser ε α) : Nat → Parser ε (List α)
  | 0 => pure []
  | count + 1 => do
    let a ← item
    let rest ← replicate item count
    return a :: rest

/-- Results of one parser until the bytes end. The fuel bounds their number. -/
def toEnd (item : Parser ε α) : (fuel : Nat) → Parser ε (List α)
  | 0 => pure []
  | fuel + 1 => do
    let c ← get
    if 0 < c.remaining then
      let a ← item
      let rest ← toEnd item fuel
      return a :: rest
    else return []

/-- A part that is there or not. -/
def optional (present : Bool) (item : Parser ε α) : Parser ε (Option α) :=
  if present then do
    let a ← item
    return some a
  else pure none

/-- The encoding of a part that is there or not. -/
def encodeOption (encode : α → List UInt8) : Option α → List UInt8
  | some a => encode a
  | none => []

variable {encode : α → List UInt8} {item : Parser ε α} {spells : β → List UInt8 → Prop}

section
variable (encodes : Encodes item encode)
include encodes

theorem Encodes.yields {next : α → Parser ε β}
    (rest : ∀ a, Yields (next a) fun b tail => spells b (encode a ++ tail)) : Yields (item >>= next) spells :=
  Yields.step encodes fun a _ spelled => spelled ▸ rest a

theorem Encodes.exhausts {next : α → Parser ε β}
    (rest : ∀ a, Exhausts (next a) fun b tail => spells b (encode a ++ tail)) : Exhausts (item >>= next) spells :=
  Exhausts.step encodes fun a _ spelled => spelled ▸ rest a

theorem Encodes.optional (present : Bool) :
    Encodes (ByteParser.optional present item) (encodeOption encode) := by
  cases present with
  | false => exact Yields.pure rfl
  | true => exact encodes.yields fun a => Yields.pure (append_nil _)

theorem Encodes.replicate (count : Nat) :
    Yields (ByteParser.replicate item count) fun list bytes => list.length = count ∧ bytes = list.flatMap encode := by
  induction count with
  | zero => exact Yields.pure ⟨rfl, rfl⟩
  | succ count ih =>
    refine encodes.yields fun a => Yields.step ih ?_
    rintro rest _ ⟨length, rfl⟩
    refine Yields.pure ⟨congrArg (· + 1) length, ?_⟩
    rw [append_nil, flatMap_cons]

/-- With enough fuel, and items that are not empty, the bytes are used up. -/
theorem Encodes.toEnd (nonempty : ∀ a, 0 < (encode a).length) {fuel : Nat} {list : List α} (enough : c.remaining ≤ fuel)
    (ran : ByteParser.toEnd item fuel c = .ok (list, c')) : c.rest = list.flatMap encode := by
  have done {c : Cursor} (none : c.remaining = 0) : c.rest = [] :=
    eq_nil_of_length_eq_zero (c.length_rest.trans none)
  induction fuel generalizing c list with
  | zero =>
    obtain ⟨rfl, rfl⟩ := pure_eq_ok.mp ran
    exact done (by omega)
  | succ fuel ih =>
    obtain ⟨_, _, got, ran⟩ := bind_eq_ok.mp ran
    cases got
    by_cases more : 0 < c.remaining
    · rw [if_pos more] at ran
      obtain ⟨a, middle, first, ran⟩ := bind_eq_ok.mp ran
      obtain ⟨rest, last, later, ran⟩ := bind_eq_ok.mp ran
      obtain ⟨rfl, rfl⟩ := pure_eq_ok.mp ran
      obtain ⟨_, consumed, rfl⟩ := encodes c a middle first
      have shorter := congrArg length consumed
      rw [c.length_rest, length_append, middle.length_rest] at shorter
      have positive := nonempty a
      rw [consumed, ih (by omega) later]
      exact flatMap_cons.symm
    · rw [if_neg more] at ran
      obtain ⟨rfl, rfl⟩ := pure_eq_ok.mp ran
      exact done (by omega)

end

end Rarpar.ByteParser

import Mathlib.Init

namespace Rarpar.Utf8

/-! Which byte strings are UTF-8. -/

/-- A byte between two limits. -/
def between (low high byte : UInt8) : Bool := low ≤ byte ∧ byte ≤ high

/-- A byte that continues a sequence. -/
def continues : UInt8 → Bool := between 0x80 0xBF

/-- The well-formed sequences: no overlong form, no surrogate, nothing above the last code point. -/
def valid : List UInt8 → Bool
  | [] => true
  | a :: rest =>
    if a ≤ 0x7F then valid rest
    else match rest with
      | [] => false
      | b :: rest =>
        if between 0xC2 0xDF a then continues b && valid rest
        else match rest with
          | [] => false
          | c :: rest =>
            if a = 0xE0 then between 0xA0 0xBF b && continues c && valid rest
            else if a = 0xED then between 0x80 0x9F b && continues c && valid rest
            else if between 0xE1 0xEF a then continues b && continues c && valid rest
            else match rest with
              | [] => false
              | d :: rest =>
                if a = 0xF0 then between 0x90 0xBF b && continues c && continues d && valid rest
                else if a = 0xF4 then between 0x80 0x8F b && continues c && continues d && valid rest
                else if between 0xF1 0xF3 a then continues b && continues c && continues d && valid rest
                else false

example : valid [0x61, 0xC3, 0xA9, 0xE2, 0x82, 0xAC, 0xF0, 0x9F, 0x98, 0x80] = true ∧ valid [0xC0, 0x80] = false := by decide

end Rarpar.Utf8

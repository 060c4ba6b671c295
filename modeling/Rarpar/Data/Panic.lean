import Mathlib.Init

namespace Rarpar

/-- A failed assertion of the source. -/
inductive Panic where
  | assertion
deriving DecidableEq, Repr

end Rarpar

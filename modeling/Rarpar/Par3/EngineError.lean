import Rarpar.Par3.Error

namespace Rarpar.Par3

/-- The errors of the engine's modelled functions. -/
inductive EngineError
  | format (e : Par3Error)
  | resourceLimit (what : String)
  | budgetLimit (what : String) (need limit available : Nat)
  | sourceChanged
  | unavailable (offset : Nat)
  | cancelled
  | invalidState (what : String)
deriving DecidableEq, Repr

end Rarpar.Par3

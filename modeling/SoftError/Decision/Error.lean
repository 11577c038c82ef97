/-!
# Errors of decision procedures
-/

namespace SoftError

inductive SolverError where
  | noSession
  | nothingToPop
  | pushPopDisabled
  | unknown
  | variableOutOfRange (var capacity : Nat)
  | freeInputs
deriving DecidableEq

namespace SolverError

def message : SolverError → String
  | noSession => "no open incremental session"
  | nothingToPop => "pop without matching push"
  | pushPopDisabled => "push/pop was not enabled when the session started"
  | unknown => "the sat solver returned neither sat nor unsat"
  | variableOutOfRange var capacity =>
    s!"variable {var} exceeds the bdd variable capacity {capacity}"
  | freeInputs => "free inputs are not supported by the bdd backend"

end SolverError

end SoftError

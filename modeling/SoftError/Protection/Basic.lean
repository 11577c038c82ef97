import SoftError.Decision.Backend
import SoftError.Protection.ManySteps
import SoftError.Protection.OneStep
import SoftError.Storage
import SoftError.Vulnerability.Report

/-!
# Protected latches

A latch is protected if its flip, in any state and reachable or not, either raises the
alarm before an output differs or leaves no trace.
-/

namespace SoftError.Protection

inductive Mode where
  | oneStep
  /-- Within so many steps, at least one. -/
  | steps (k : Nat)
deriving DecidableEq

variable (c : Circuit)

/-- The signals of the protected latches, ascending. -/
def analyze {σ : Type} [DecisionProcedure σ] (o : Options) (mode : Mode) :
    Deciding σ AnalysisError (List Signal) := do
  let checked ← MonadExcept.ofExcept (checkedLatches c o.reserved)
  let compared := c.latches.length - o.reserved
  let found ← match mode with
    | .oneStep => (OneStep.search c checked compared).adapt .solver
    | .steps k =>
      unless Storage.fits k 24 do throw .tooLarge
      (ManySteps.search c checked compared (max 1 k)).adapt .solver
  return Signal.sorted (found.map Component.signal)

def report (o : Options) (mode : Mode) : Except AnalysisError (List Signal) := do
  requireAlarm c
  o.decide (analyze c o mode)

end SoftError.Protection

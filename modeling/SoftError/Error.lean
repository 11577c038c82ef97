import SoftError.Circuit.Error
import SoftError.Decision.Error
import SoftError.Formula.Error
import SoftError.Stimulus.Error

/-!
# Errors of the analyses
-/

namespace SoftError

inductive AnalysisError where
  | circuit (e : CircuitError)
  | formula (e : FormulaError)
  | solver (e : SolverError)
  | stimulus (e : StimulusError)
  | tooManyReserved (reserved latches : Nat)
  | unexpectedFreeInputs (index : Nat)
  | environmentInputs (expected found : Nat)
  | environmentOutputs (expected found : Nat)
  /-- More than can be stored. -/
  | tooLarge

namespace AnalysisError

def message : AnalysisError → String
  | circuit e => e.message
  | formula e => e.message
  | solver e => e.message
  | stimulus e => e.message
  | tooManyReserved reserved latches =>
    s!"{reserved} error latches requested but the circuit has only {latches} latches"
  | unexpectedFreeInputs index =>
    s!"test case {index} has free inputs, which this analysis does not support"
  | environmentInputs expected found =>
    s!"environment model needs {expected} inputs but has {found}"
  | environmentOutputs expected found =>
    s!"environment model needs {expected} outputs but has {found}"
  | tooLarge => "capacity overflow"

end AnalysisError

end SoftError

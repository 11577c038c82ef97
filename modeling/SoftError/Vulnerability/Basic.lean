import SoftError.Decision.Backend
import SoftError.Vulnerability.Diagrammatic
import SoftError.Vulnerability.Explicit
import SoftError.Vulnerability.Incremental
import SoftError.Vulnerability.OneShot

/-!
# Vulnerability analysis

The symbolic analyses with the procedure that the options ask for.
-/

namespace SoftError.Vulnerability

variable (c : Circuit)

/-- Latch and time of the flip are symbolic. -/
def symbolic (o : Options) (stimuli : List Stimulus) : Except AnalysisError Report := do
  requireAlarm c
  o.decide (Incremental.analyze c o stimuli)

/-- Only the time of the flip is symbolic. -/
def singleTime (o : Options) (stimuli : List Stimulus) : Except AnalysisError Report := do
  requireAlarm c
  o.decide (OneShot.analyze c o stimuli)

end SoftError.Vulnerability

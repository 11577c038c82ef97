import SoftError.Decision.DiagramSession
import SoftError.Decision.SearchSession
import SoftError.Error

/-!
# The procedure that the options ask for
-/

namespace SoftError

/-- The outcome of a computation that starts with a fresh procedure. -/
def Options.decide {α : Type} (o : Options)
    (m : {σ : Type} → [DecisionProcedure σ] → Deciding σ AnalysisError α) :
    Except AnalysisError α :=
  match o.backend with
  | .search => (m.run.run (SearchSession.ofOptions o)).1
  | .diagram => (m.run.run (DiagramSession.ofOptions DiagramSession.defaultCapacity o)).1

end SoftError

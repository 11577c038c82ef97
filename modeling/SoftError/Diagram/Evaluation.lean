import SoftError.Circuit.Evaluation
import SoftError.Decision.Error
import SoftError.Diagram.Sharing
import SoftError.Stimulus.Basic

/-!
# Evaluation over decision diagrams

A table of diagrams runs a circuit for all assignments of the diagram variables at once.
The inputs are definite; faults enter through the latches.
-/

namespace SoftError

instance : GateValue Diagram where
  ofBool := .leaf
  complement := Diagram.not
  and := Diagram.and

namespace Table

/-- Sets the inputs in order, and stops at a free one. -/
def setLevels (t : Table Diagram) : List (Nat × Level) → Except SolverError Unit × Table Diagram
  | [] => (.ok (), t)
  | (v, x) :: rest =>
    match x.toBool? with
    | none => (.error .freeInputs, t)
    | some b => setLevels (t.set v (.leaf b)) rest

def applyLevels (c : Circuit) (xs : List Level) (t : Table Diagram) :
    Except SolverError Unit × Table Diagram :=
  t.setLevels ((c.inputs.map Signal.var).zip xs)

end Table

end SoftError

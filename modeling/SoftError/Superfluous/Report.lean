import SoftError.Vulnerability.Report
import SoftError.Witness.SuperfluousTrace

/-!
# Reports on superfluous alarms
-/

namespace SoftError.Superfluous

/-- What is left to the solver. The time of the flip always is. -/
structure Mode where
  symbolicLocation : Bool := false
  freeInputs : Bool := false
deriving DecidableEq

/-- A step in which the alarm is raised without any fault. -/
structure GoldenAlarm where
  stimulus : Nat
  step : Nat
deriving DecidableEq

structure Report where
  traces : List SuperfluousTrace
  goldenAlarm : Option GoldenAlarm
deriving DecidableEq

namespace Report

/-- The signals of the latches with a superfluous alarm, ascending. -/
def detected (r : Report) : List Signal := Signal.sorted (r.traces.map fun t => t.component.signal)

/-- Whether there is an alarm that should not be. -/
def found (r : Report) : Bool := !r.traces.isEmpty || r.goldenAlarm.isSome

end Report

end SoftError.Superfluous

import SoftError.Ascending
import SoftError.Options
import SoftError.Witness.ErrorTrace

/-!
# Vulnerability reports

A latch is vulnerable if inverting it can change an output while the alarm stays low.
-/

namespace SoftError

/-- Signals in ascending order, without repetition. -/
def Signal.sorted (ss : List Signal) : List Signal :=
  Ascending.ofList (fun a b => decide (a.code < b.code)) ss

namespace Vulnerability

structure Report where
  /-- The signals of the vulnerable latches, ascending. -/
  vulnerable : List Signal
  traces : List ErrorTrace
deriving DecidableEq

/-- The report of the traces found, which are shown on demand. -/
def Report.ofTraces (o : Options) (traces : List ErrorTrace) : Report where
  vulnerable := Signal.sorted (traces.map ErrorTrace.latch)
  traces := if o.diagnostic then traces else []

end Vulnerability

end SoftError

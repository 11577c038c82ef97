import SoftError.Circuit.Evaluation

/-!
# Replaying a fault

A fault inverts one latch at the start of one step. Its replay runs the circuit twice from
the initial state on the same inputs, once golden and once with the fault.
-/

namespace SoftError

structure Fault where
  /-- Index of the latch. -/
  latch : Nat
  time : Nat
deriving DecidableEq

/-- The golden and the faulty values of one step. -/
structure Observation where
  golden : Table Bool
  faulty : Table Bool

namespace Fault

variable (c : Circuit)

/-- Inverts the latch if the time has come. -/
def strike (f : Fault) (t : Nat) (table : Table Bool) : Table Bool :=
  if t = f.time then table.flip c f.latch else table

/-- The steps of both runs, of which the next one is step `t`. -/
def replayFrom (f : Fault) (t : Nat) (golden faulty : Table Bool) :
    List (List Bool) → List Observation
  | [] => []
  | xs :: rest =>
    let golden := golden.step c xs
    let faulty := (f.strike c t faulty).step c xs
    ⟨golden, faulty⟩ :: f.replayFrom (t + 1) (golden.advance c) (faulty.advance c) rest

def replay (f : Fault) (inputs : List (List Bool)) : List Observation :=
  f.replayFrom c 0 (Table.initial c) (Table.initial c) inputs

end Fault

namespace Observation

variable (c : Circuit)

/-- Whether the outputs apart from the alarm agree. -/
def agrees (o : Observation) : Bool := o.golden.observed c = o.faulty.observed c

/-- Whether the next states agree, the reserved latches apart. -/
def converges (reserved : Nat) (o : Observation) : Bool :=
  let compared := c.latches.length - reserved
  (o.golden.nextState c).take compared = (o.faulty.nextState c).take compared

end Observation

end SoftError

import SoftError.Circuit.Table

/-!
# Concrete evaluation

The gates are evaluated in order, each from the values of its fanins. A run of a circuit
alternates between evaluating the gates and moving on to the next state, and a fault
inverts one latch at the start of a step.
-/

namespace SoftError

/-- Signal values with a conjunction. -/
class GateValue (α : Type) extends SignalValue α where
  and : α → α → α

instance : GateValue Bool where
  ofBool b := b
  complement := not
  and := and

namespace Table

variable {α : Type} [GateValue α] (c : Circuit)

@[specialize]
def evalGate (t : Table α) (g : Gate) : Table α :=
  t.set g.var (GateValue.and (t.read g.left) (t.read g.right))

/-- Evaluates every gate once, in order. -/
@[specialize]
def settle (t : Table α) : Table α := c.gates.foldl evalGate t

/-- Applies an input vector and evaluates the gates. -/
@[specialize]
def step (xs : List α) (t : Table α) : Table α := (t.setInputs c xs).settle c

/-- Inverts a latch; `none` if there is no latch with that index. -/
def flip? (index : Nat) (t : Table Bool) : Option (Table Bool) :=
  c.latches[index]?.map fun l => t.set l.signal.var !(t.get l.signal.var)

/-- Inverts a latch, if there is one with that index. -/
def flip (index : Nat) (t : Table Bool) : Table Bool := (t.flip? c index).getD t

end Table

end SoftError

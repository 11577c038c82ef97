import SoftError.Circuit.Error

/-!
# Sequential circuits

A netlist has inputs, latches, outputs and AND gates over numbered variables. The last
output is the alarm, raised by the protection logic when it notices a flipped latch.
-/

namespace SoftError

/-- A latch with the signal of its next state. Without a reset value it starts low. -/
structure Latch where
  signal : Signal
  next : Signal
  reset : Option Bool
deriving DecidableEq

def Latch.initial (l : Latch) : Bool := l.reset.getD false

/-- The gate `out = left ∧ right`. -/
structure Gate where
  out : Signal
  left : Signal
  right : Signal
deriving DecidableEq

def Gate.var (g : Gate) : Nat := g.out.var

structure Netlist where
  maxVar : Nat
  inputs : List Signal
  latches : List Latch
  outputs : List Signal
  gates : List Gate
deriving DecidableEq

namespace Netlist

/-- The signals that define a variable, in order of definition. -/
def definitions (n : Netlist) : List Signal :=
  n.inputs ++ n.latches.map Latch.signal ++ n.gates.map Gate.out

/-- The signals that refer to a variable. -/
def uses (n : Netlist) : List Signal :=
  n.latches.map Latch.next ++ n.outputs ++ n.gates.flatMap fun g => [g.left, g.right]

def alarm? (n : Netlist) : Option Signal := n.outputs.getLast?

/-- The outputs apart from the alarm. -/
def observed (n : Netlist) : List Signal := n.outputs.dropLast

/-- Position of the latch with the given signal. -/
def latchIndex? (n : Netlist) (s : Signal) : Option Nat :=
  n.latches.findIdx? fun l => l.signal = s

/-- The largest variable index for which every variable, shifted past the constant, is a
positive signed 32-bit number. -/
def variableBound : Nat := (1 <<< 31) - 2

end Netlist

end SoftError

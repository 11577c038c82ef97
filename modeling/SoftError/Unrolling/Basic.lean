import SoftError.Circuit.Table
import SoftError.Encoding.Encoder
import SoftError.Stimulus.Basic

/-!
# Symbolic runs

An unrolling runs a circuit over literals. The gates of each step are encoded by an
encoder, which several unrollings may share: their variables are then numbered together.
-/

namespace SoftError

instance : SignalValue Lit where
  ofBool := Lit.ofBool
  complement l := -l

structure Unrolling where
  table : Table Lit
  /-- The variables of the free inputs, in order of creation. -/
  opened : List Lit
  /-- Steps since the latches were reset. -/
  time : Nat

namespace Unrolling

variable (c : Circuit)

def initial : Unrolling := ⟨Table.initial c, [], 0⟩

def reset (u : Unrolling) : Unrolling := { u with table := u.table.reset c, time := 0 }

def read (u : Unrolling) (s : Signal) : Lit := u.table.read s

def inputs (u : Unrolling) : List Lit := u.table.inputs c

def state (u : Unrolling) : List Lit := u.table.state c

def outputs (u : Unrolling) : List Lit := u.table.outputs c

/-- The outputs apart from the alarm. -/
def observed (u : Unrolling) : List Lit := u.table.observed c

def alarm (u : Unrolling) : Lit := u.table.alarm c

def nextState (u : Unrolling) : List Lit := u.table.nextState c

def setInputs (ls : List Lit) (u : Unrolling) : Unrolling :=
  { u with table := u.table.setInputs c ls }

def setState (ls : List Lit) (u : Unrolling) : Unrolling :=
  { u with table := u.table.setState c ls }

/-- Replaces the value of a latch; `none` if there is no latch with that index. -/
def setLatch? (index : Nat) (l : Lit) (u : Unrolling) : Option Unrolling :=
  (u.table.setLatch? c index l).map fun table => { u with table }

/-- Replaces the value of a latch, if there is one with that index. -/
def setLatch (index : Nat) (l : Lit) (u : Unrolling) : Unrolling := (u.setLatch? c index l).getD u

/-- One literal for each input: a constant, or a fresh variable if the input is free. The
second component has the fresh variables. -/
def levelLits (e : Encoder) : List Level → (List Lit × List Lit) × Encoder
  | [] => (([], []), e)
  | v :: vs =>
    match v.toBool? with
    | some b =>
      let ((ls, opened), e) := levelLits e vs
      ((Lit.ofBool b :: ls, opened), e)
    | none =>
      let (l, e) := e.fresh
      let ((ls, opened), e) := levelLits e vs
      ((l :: ls, l :: opened), e)

/-- Applies an input vector, where free inputs become fresh variables. -/
def applyLevels (vs : List Level) (u : Unrolling) (e : Encoder) : Unrolling × Encoder :=
  let ((ls, opened), e) := levelLits e (vs.take c.inputs.length)
  ({ u.setInputs c ls with opened := u.opened ++ opened }, e)

/-- Makes every input a fresh variable. -/
def openInputs (u : Unrolling) (e : Encoder) : Unrolling × Encoder :=
  let (ls, e) := e.freshList c.inputs.length
  (u.setInputs c ls, e)

/-- Makes every latch a fresh variable, which leaves the state arbitrary. -/
def openState (u : Unrolling) (e : Encoder) : Unrolling × Encoder :=
  let (ls, e) := e.freshList c.latches.length
  (u.setState c ls, e)

def evalGate (s : Table Lit × Encoder) (g : Gate) : Table Lit × Encoder :=
  let (l, e) := s.2.and (s.1.read g.left) (s.1.read g.right)
  (s.1.set g.var l, e)

/-- Encodes the gates of the current step. -/
def step (u : Unrolling) (e : Encoder) : Unrolling × Encoder :=
  let (table, e) := c.gates.foldl evalGate (u.table, e)
  ({ u with table, time := u.time + 1 }, e)

/-- Moves on to the next state. -/
def advance (u : Unrolling) : Unrolling := { u with table := u.table.advance c }

end Unrolling

end SoftError

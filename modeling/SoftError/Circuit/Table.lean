import SoftError.Circuit.WellFormed
import Std.Data.TreeMap

/-!
# Value tables

A table gives each variable of a circuit a value of some type: a Boolean in a concrete
run, a literal or a decision diagram in a symbolic one. Signals are read through it, and
a step of the circuit replaces the state by the next state.
-/

namespace SoftError

/-- Values that a signal can take: constants and a complement. -/
class SignalValue (α : Type) where
  ofBool : Bool → α
  complement : α → α

structure Table (α : Type) where
  /-- The values of the first variables. -/
  low : Array α
  /-- The values of the other variables, apart from those that were never set. -/
  high : Std.TreeMap Nat α
  /-- The value of a variable that was never set. -/
  blank : α

namespace Table

variable {α : Type}

def get (t : Table α) (v : Nat) : α :=
  if h : v < t.low.size then t.low[v] else t.high.getD v t.blank

def set (t : Table α) (v : Nat) (x : α) : Table α :=
  if v < t.low.size then { t with low := t.low.setIfInBounds v x }
  else { t with high := t.high.insert v x }

@[simp]
theorem get_set (t : Table α) (v w : Nat) (x : α) :
    (t.set v x).get w = if v = w then x else t.get w := by
  rw [set]
  split
  · rename_i hv
    by_cases hw : w < t.low.size
    · simp [get, hw, Array.getElem_setIfInBounds]
    · have hNe : v ≠ w := fun h => hw (h ▸ hv)
      simp [get, hw, hNe]
  · rename_i hv
    by_cases hw : w < t.low.size
    · have hNe : v ≠ w := fun h => hv (h ▸ hw)
      simp [get, hw, hNe]
    · simp [get, hw, Std.TreeMap.getD_insert]

/-- How many variables come first at most. -/
def firstCount : Nat := 4096

/-- A table of the variables up to `maxVar` in which nothing has been set. -/
def blankUpTo (maxVar : Nat) (blank : α) : Table α :=
  ⟨Array.replicate (min (maxVar + 1) firstCount) blank, ∅, blank⟩

@[simp]
theorem get_blankUpTo (maxVar : Nat) (blank : α) (v : Nat) :
    (blankUpTo maxVar blank).get v = blank := by
  simp [get, blankUpTo]

/-- Sets the variables of several signals in order. The longer list is cut off. -/
def setAll (t : Table α) : List Signal → List α → Table α
  | s :: signals, x :: xs => setAll (t.set s.var x) signals xs
  | _, _ => t

/-- Sets the states of several latches in order. The longer list is cut off. -/
def setLatches (t : Table α) : List Latch → List α → Table α
  | l :: latches, x :: xs => setLatches (t.set l.signal.var x) latches xs
  | _, _ => t

variable [SignalValue α]

@[specialize]
def read (t : Table α) (s : Signal) : α :=
  if s.negated then SignalValue.complement (t.get s.var) else t.get s.var

variable (c : Circuit)

@[specialize]
def outputs (t : Table α) : List α := c.outputs.map t.read

/-- The outputs apart from the alarm. -/
@[specialize]
def observed (t : Table α) : List α := c.observed.map t.read

@[specialize]
def alarm (t : Table α) : α := (c.alarm?.map t.read).getD (SignalValue.ofBool false)

@[specialize]
def inputs (t : Table α) : List α := c.inputs.map t.read

@[specialize]
def state (t : Table α) : List α := c.latches.map fun l => t.read l.signal

@[specialize]
def nextState (t : Table α) : List α := c.latches.map fun l => t.read l.next

def setInputs (xs : List α) (t : Table α) : Table α := t.setAll c.inputs xs

def setState (xs : List α) (t : Table α) : Table α :=
  t.setLatches c.latches xs

/-- Replaces the value of the latch with the given index; `none` if there is no such latch. -/
def setLatch? (index : Nat) (x : α) (t : Table α) : Option (Table α) :=
  c.latches[index]?.map fun l => t.set l.signal.var x

/-- Puts every latch into its initial state. -/
def reset (t : Table α) : Table α :=
  t.setState c (c.latches.map fun l => SignalValue.ofBool l.initial)

def initial : Table α := reset c (blankUpTo c.maxVar (SignalValue.ofBool false))

/-- Moves on to the next state. -/
@[specialize]
def advance (t : Table α) : Table α := t.setState c (t.nextState c)

end Table

end SoftError

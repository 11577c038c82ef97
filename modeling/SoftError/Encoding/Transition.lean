import SoftError.Circuit.WellFormed
import SoftError.Formula.Basic

/-!
# The transition relation of a circuit

Circuit variable `v` becomes propositional variable `v + 1`, so the constant of the
circuit becomes the constant of the formula. Three clauses state the value of each gate.
-/

namespace SoftError

/-- The literal of a signal. -/
def Signal.lit (s : Signal) : Lit :=
  (Lit.ofVar (s.var + 1) (Nat.succ_ne_zero _)).withSign !s.negated

/-- The literal of a signal in 32-bit words: the variable number is cut to a word, whose top
bit is read as a sign. There is none for a word `0`. -/
def Signal.wordLit? (s : Signal) : Option Lit :=
  let word := Int.bmod (s.var + 1) (1 <<< 32)
  Lit.ofInt? (if s.negated then Int.bmod (-word) (1 <<< 32) else word)

/-- Nothing is cut off within the variable range of circuits. -/
theorem Signal.wordLit?_eq_some {s : Signal} (h : s.var ≤ Netlist.variableBound) :
    s.wordLit? = some s.lit := by
  have hBound : s.var + 1 < 2147483648 := by
    simp only [Netlist.variableBound] at h
    omega
  have hWord : Int.bmod (s.var + 1) (1 <<< 32) = s.var + 1 := by
    rw [Int.bmod_def]
    simp only [Nat.reduceShiftLeft]
    omega
  have hNeg : Int.bmod (-(s.var + 1)) (1 <<< 32) = -(s.var + 1) := by
    rw [Int.bmod_def]
    simp only [Nat.reduceShiftLeft]
    omega
  have hPositive : (Lit.ofVar (s.var + 1) (Nat.succ_ne_zero _)).positive = true := by
    simp [Lit.ofVar, Lit.positive]
  simp only [Signal.wordLit?, hWord, hNeg, Lit.ofInt?]
  cases hs : s.negated
  · rw [dif_neg (by simp; omega)]
    simp only [Signal.lit, hs, Lit.withSign, hPositive, Bool.not_false]
    exact congrArg some (Lit.ext (by simp [Lit.ofVar]))
  · rw [dif_neg (by simp; omega)]
    simp only [Signal.lit, hs, Lit.withSign, hPositive, Bool.not_true]
    exact congrArg some (Lit.ext (by simp [Lit.ofVar]))

structure Transition where
  relation : Cnf
  inputs : List Lit
  /-- The outputs apart from the alarm. -/
  outputs : List Lit
  alarm : Lit
  state : List Lit
  next : List Lit
  maxVar : Nat
deriving DecidableEq

namespace Transition

/-- The clauses of `out = left ∧ right`. -/
def gateClauses (out left right : Lit) : Cnf := [[-out, right], [-out, left], [out, -right, -left]]

def ofGate (g : Gate) : Cnf := gateClauses g.out.lit g.left.lit g.right.lit

/-- The transition relation of a circuit, which needs an alarm. -/
def ofCircuit (c : Circuit) : Except CircuitError Transition :=
  match c.alarm? with
  | none => .error .missingAlarm
  | some alarm => .ok {
      relation := c.gates.flatMap ofGate
      inputs := c.inputs.map Signal.lit
      outputs := c.observed.map Signal.lit
      alarm := alarm.lit
      state := c.latches.map fun l => l.signal.lit
      next := c.latches.map fun l => l.next.lit
      maxVar := c.maxVar + 1 }

/-- The clause that pins the constant. -/
def constant : Clause := [Lit.top]

/-- The relation together with the pinned constant. -/
def full (t : Transition) : Cnf := constant :: t.relation

end Transition

end SoftError

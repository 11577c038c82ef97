import SoftError.Fault.Component
import SoftError.Stimulus.Expansion
import SoftError.Vulnerability.Report

/-!
# Vulnerabilities by explicit faults

Every latch is flipped at every step of every stimulus. The faulty run is followed until
the alarm is raised, an output differs or the states agree.
-/

namespace SoftError.Vulnerability.Explicit

variable (c : Circuit)

/-- What becomes of a flip. -/
inductive Outcome where
  | detected
  /-- A wrong output so many steps after the flip, without any alarm. -/
  | silent (after : Nat)
  | masked
deriving DecidableEq

def Outcome.later : Outcome → Outcome
  | silent after => silent (after + 1)
  | o => o

/-- A step of the golden run. -/
structure Step where
  inputs : List Bool
  /-- The table before the step. -/
  table : Table Bool
  alarm : Bool
  observed : List Bool
  nextState : List Bool

def goldenRun (t : Table Bool) : List (List Bool) → List Step
  | [] => []
  | inputs :: rest =>
    let after := t.step c inputs
    let nextState := after.nextState c
    ⟨inputs, t, after.alarm c, after.observed c, nextState⟩
      :: goldenRun (after.setState c nextState) rest

/-- Follows the faulty run along the golden one. -/
def follow (faulty : Table Bool) : List Step → Outcome
  | [] => .masked
  | golden :: rest =>
    let faulty := faulty.step c golden.inputs
    if faulty.alarm c then .detected
    else if faulty.observed c ≠ golden.observed then .silent 0
    else
      let nextState := faulty.nextState c
      if nextState = golden.nextState then .masked
      else (follow (faulty.setState c nextState) rest).later

/-- The first flip from step `t` on that leads to a wrong output, and how long after it the
output is wrong. A flip after a golden alarm is not considered. -/
def firstFlip (latch t : Nat) : List Step → Option (Nat × Nat)
  | [] => none
  | golden :: rest =>
    match follow c (golden.table.flip c latch) (golden :: rest) with
    | .silent after => some (t, after)
    | _ => if golden.alarm then none else firstFlip latch (t + 1) rest

def trace? (inputs : List (List Bool)) (golden : List Step) (k : Component) : Option ErrorTrace :=
  (firstFlip c k.index 0 golden).map fun (flip, after) =>
    { latch := k.signal, flip, error := flip + after, inputs := inputs.take (flip + after + 1) }

/-- The traces on some inputs, and the latches without one. -/
def onInputs (inputs : List (List Bool)) (remaining : List Component) :
    List ErrorTrace × List Component :=
  let golden := goldenRun c (Table.initial c) inputs
  remaining.foldr (fun k (traces, others) =>
    match trace? c inputs golden k with
    | some trace => (trace :: traces, others)
    | none => (traces, k :: others)) ([], [])

/-- Adds the traces on one filling of the free inputs after the other to those found, and
drops a latch once it has a trace. -/
def onFillings (s : Stimulus) : (fillings : List Nat) → (found : List ErrorTrace) →
    (remaining : List Component) → List ErrorTrace × List Component
  | [], found, remaining => (found, remaining)
  | n :: rest, found, remaining =>
    if remaining.isEmpty then (found, remaining)
    else
      let (traces, remaining) := onInputs c (s.filling n) remaining
      onFillings s rest (found ++ traces) remaining

/-- Free inputs are filled in up to this many. -/
def maxFree : Nat := 20

def onStimuli : (index : Nat) → List Stimulus → (found : List ErrorTrace) →
    (remaining : List Component) → Except AnalysisError (List ErrorTrace)
  | _, [], found, _ => .ok found
  | index, s :: rest, found, remaining =>
    if maxFree < s.freeCount then .error (.unexpectedFreeInputs index)
    else
      match onFillings c s (List.range (1 <<< s.freeCount)) found remaining with
      | (found, []) => .ok found
      | (found, remaining) => onStimuli (index + 1) rest found remaining

def analyze (o : Options) (stimuli : List Stimulus) : Except AnalysisError Report := do
  requireAlarm c
  checkStimuli c true stimuli
  let checked ← checkedLatches c o.reserved
  let traces ← onStimuli c 0 stimuli [] checked
  return .ofTraces o traces

end SoftError.Vulnerability.Explicit

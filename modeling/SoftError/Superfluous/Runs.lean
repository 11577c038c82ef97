import SoftError.Circuit.Evaluation
import SoftError.Superfluous.Report
import SoftError.Unrolling.Basic

/-!
# Encoding superfluous alarms

A golden and a faulty run grow side by side. The relevant outputs of both agree at every
step, and a check at the end of a step asks for a faulty alarm so far and for states that
agree again. An environment, if there is one, reads the inputs and the golden outputs and
says which outputs are relevant.
-/

namespace SoftError.Superfluous

/-- A latch with its selector. -/
abbrev Candidate := Component × Lit

/-- Where the flip happens. -/
inductive Location where
  | fixed (k : Component)
  /-- At the latch that the solver selects. -/
  | selected (all : List Candidate)

def Location.selectors : Location → List Lit
  | fixed _ => []
  | selected all => all.map Prod.snd

/-- What is analysed. -/
structure Problem where
  circuit : Circuit
  environment : Option Circuit
  mode : Mode
  reserved : Nat

/-- Number of latches whose states are compared. -/
def Problem.compared (p : Problem) : Nat := p.circuit.latches.length - p.reserved

/-- The runs on one stimulus. -/
structure Runs where
  encoder : Encoder
  golden : Unrolling
  faulty : Unrolling
  environment : Option Unrolling
  /-- The golden run without a solver, if all inputs are definite and all outputs relevant. -/
  concrete : Option (Table Bool)
  time : Nat := 0
  /-- The selectors of the steps at which a flip is possible. -/
  flips : List (Nat × Lit) := []
  /-- The faulty alarms. -/
  alarms : List Lit := []
  /-- The literals that switch off the checks of the earlier steps. -/
  done : List Lit := []
  /-- The literals of the inputs at each step. -/
  inputs : List (List Lit) := []

def Runs.initial (p : Problem) (e : Encoder) : Runs where
  encoder := e
  golden := .initial p.circuit
  faulty := .initial p.circuit
  environment := p.environment.map Unrolling.initial
  concrete := if p.mode.freeInputs || p.environment.isSome then none
    else some (.initial p.circuit)

/-- What a step adds to a session. -/
structure Extension where
  /-- A trace found without a solver. -/
  immediate : Option SuperfluousTrace
  /-- Clauses that may have constants. -/
  checks : List Clause
  clauses : Cnf
  /-- Some alarm was raised, unless the check is switched off. -/
  alarm : Clause
  assumptions : List Lit

/-- Flips the candidates under their selectors and that of the step. -/
def inject (c : Circuit) (flip : Lit) :
    List Candidate → Unrolling → Encoder → Unrolling × Encoder
  | [], u, e => (u, e)
  | (k, selector) :: rest, u, e =>
    let (l, e) := e.flipIf (u.read k.signal) selector flip
    inject c flip rest (u.setLatch c k.index l) e

/-- What a flip in the current step does to a concrete run. -/
inductive Effect where
  | wrongOutput
  /-- An alarm, and the golden state at the end of the step. -/
  | superfluous
  | undecided

def effect (p : Problem) (k : Component) (t : Table Bool) : Effect :=
  let flipped := (t.flip p.circuit k.index).settle p.circuit
  if flipped.observed p.circuit ≠ t.observed p.circuit then .wrongOutput
  else if flipped.alarm p.circuit ∧ (flipped.nextState p.circuit).take p.compared
      = (t.nextState p.circuit).take p.compared then .superfluous
  else .undecided

/-- Whether the solver has to consider a flip in the current step, and the trace of a flip
that is settled without it. -/
def settle (p : Problem) (s : Stimulus) (time : Nat) (concrete : Option (Table Bool)) :
    Location → Bool × Option SuperfluousTrace
  | .selected _ => (true, none)
  | .fixed k =>
    match concrete.map (effect p k) with
    | none | some .undecided => (true, none)
    | some .wrongOutput => (false, none)
    | some .superfluous =>
      (false, some { component := k, flip := time, alarm := time, gone := time + 1
                     stimulus := s.take (time + 1) })

/-- Injects a flip at the given location, at most one of all steps. -/
def flipAt (c : Circuit) (location : Location) (earlier : List Lit) (u : Unrolling) (e : Encoder) :
    Lit × Unrolling × Encoder :=
  let (flip, e) := e.fresh
  let (u, e) := match location with
    | .fixed k =>
      let (l, e) := e.flip (u.read k.signal) flip
      (u.setLatch c k.index l, e)
    | .selected all => inject c flip all u e
  (flip, u, e.add (earlier.map fun f => [-flip, -f]))

/-- The outputs agree where the guards hold. -/
def agreement : (guards golden faulty : List Lit) → List Clause
  | g :: guards, a :: golden, b :: faulty =>
    [-g, -a, b] :: [-g, a, -b] :: agreement guards golden faulty
  | _, _, _ => []

/-- The states agree unless the check is switched off: the assumptions for the golden values
that are constant, and the clauses for the others. -/
def convergence (off : Lit) : (golden faulty : List Lit) → List Lit × List Clause
  | a :: golden, b :: faulty =>
    let (assumptions, clauses) := convergence off golden faulty
    if a.isConstant then ((if a = .top then b else -b) :: assumptions, clauses)
    else (assumptions, [off, -a, b] :: [off, a, -b] :: clauses)
  | _, _ => ([], [])

/-- The next step of the environment, and its outputs. -/
def stepEnvironment (p : Problem) (inputs : List Lit) (u : Option Unrolling) (e : Encoder) :
    (Option (List Lit) × Option Unrolling) × Encoder :=
  match p.environment, u with
  | some env, some u =>
    let (u, e) := (u.setInputs env inputs).step env e
    ((some (u.outputs env), some u), e)
  | _, _ => ((none, none), e)

/-- The constraint of the environment on the inputs, its last output, in the modes that
leave inputs free. -/
def constraint (p : Problem) (relevant : Option (List Lit)) : List Clause :=
  match relevant with
  | some ls =>
    if p.mode.freeInputs && ls.length = p.circuit.outputs.length then
      ls.getLast?.toList.map fun l => [l]
    else []
  | none => []

/-- Encodes the next step; `none` if the golden alarm is raised whatever the inputs. -/
def Runs.step (p : Problem) (location : Location) (s : Stimulus) (levels : List Level) (r : Runs) :
    Option (Extension × Runs) :=
  let c := p.circuit
  let (golden, e) := r.golden.applyLevels c levels r.encoder
  let (golden, e) := golden.step c e
  let alarm := golden.alarm c
  if alarm = .top then none
  else
    let e := if alarm = .bot then e else e.add [[-alarm]]
    let inputs := golden.inputs c
    let faulty := r.faulty.setInputs c inputs
    let concrete := r.concrete.map fun t => t.step c (levels.map Level.toBool)
    let (open_, immediate) := settle p s r.time concrete location
    let (flips, faulty, e) :=
      if open_ then
        let (flip, faulty, e) := flipAt c location (r.flips.map Prod.snd) faulty e
        (r.flips ++ [(r.time, flip)], faulty, e)
      else (r.flips, faulty, e)
    let (faulty, e) := faulty.step c e
    let alarms := r.alarms ++ [faulty.alarm c]
    let ((relevant, environment), e) :=
      stepEnvironment p (inputs ++ golden.outputs c) r.environment e
    let observed := golden.observed c
    let guards := relevant.getD (observed.map fun _ => Lit.top)
    let (off, e) := e.fresh
    let (constants, convergence) := convergence off
      ((golden.nextState c).take p.compared) ((faulty.nextState c).take p.compared)
    let (clauses, e) := e.take
    some ({
        immediate
        checks := agreement guards observed (faulty.observed c) ++ constraint p relevant
          ++ convergence
        clauses
        alarm := alarms ++ [off]
        assumptions := r.done ++ [-off] ++ constants },
      { encoder := e, golden, faulty, environment, concrete, time := r.time, flips, alarms
        done := r.done ++ [off], inputs := r.inputs ++ [inputs] })

/-- Moves on to the next state. -/
def Runs.advance (p : Problem) (r : Runs) : Runs :=
  { r with
    golden := r.golden.advance p.circuit
    faulty := r.faulty.advance p.circuit
    environment := match p.environment with
      | some env => r.environment.map (·.advance env)
      | none => none
    concrete := r.concrete.map (·.advance p.circuit)
    time := r.time + 1 }

/-- The variables that a trace is read from. -/
def Runs.interest (location : Location) (r : Runs) : List Lit :=
  location.selectors ++ r.flips.map Prod.snd ++ r.alarms.filter (!·.isConstant) ++ r.golden.opened

/-- The latch that a model flips, and the literals of the choice. -/
def Location.read (m : Model) : Location → Option (Component × List Lit)
  | fixed k => some (k, [])
  | selected all => (all.find? fun k => m.isTrue k.2).map fun (k, selector) => (k, [selector])

/-- The flip chosen by a model, excluded from then on, and its trace. A model without a flip
is not read. -/
def Runs.read (location : Location) (s : Stimulus) (r : Runs) (m : Model) :
    Option (Clause × SuperfluousTrace) := do
  let (time, flip) ← r.flips.find? fun f => m.isTrue f.2
  let (k, chosen) ← location.read m
  return (Clause.negate (flip :: chosen),
    { component := k, flip := time, alarm := (r.alarms.findIdx? m.isTrue).getD time
      gone := r.time + 1, stimulus := (s.take (r.time + 1)).settle r.inputs m })

/-- How many flips a model can choose from. -/
def Runs.choices (location : Location) (r : Runs) : Nat :=
  r.flips.length * max 1 location.selectors.length

end SoftError.Superfluous

import SoftError.Diagram.Chooser
import SoftError.Diagram.Evaluation
import SoftError.Fault.Component
import SoftError.Vulnerability.Report

/-!
# Vulnerabilities by decision diagrams

The faulty run is carried out for all faults at once. There is a diagram variable for each
latch, followed by one for each step. A latch is flipped in a step if both variables are set,
and only assignments with at most one latch and at most one step count. The golden run is
concrete.
-/

namespace SoftError.Vulnerability.Diagrammatic

variable (c : Circuit)

/-- A latch with its variable. -/
abbrev Candidate := Component × Nat

def candidates (checked : List Component) : List Candidate := checked.mapIdx fun i k => (k, i)

/-- A choice among variables. -/
structure Choice where
  /-- No two of them are set. -/
  single : Diagram := .leaf true
  /-- Some of them is set. -/
  any : Diagram := .leaf false

/-- Takes in one more variable. -/
def Choice.add (x : Choice) (v : Nat) : Choice where
  single := x.single.and (x.any.and (.ofVar v)).not
  any := x.any.or (.ofVar v)

def Choice.ofVars (vs : List Nat) : Choice := vs.foldl Choice.add {}

/-- At most one latch is selected. -/
def location (all : List Candidate) : Diagram := (Choice.ofVars (all.map Prod.snd)).single

/-- The two runs on one stimulus. -/
structure Runs where
  golden : Table Bool
  faulty : Table Diagram
  /-- The faults that have raised no alarm. -/
  quiet : Diagram
  /-- The step of the flip. -/
  flips : Choice
  /-- Number of steps so far. -/
  time : Nat

def Runs.initial : Runs := ⟨Table.initial c, Table.initial c, .leaf true, {}, 0⟩

/-- Flips a latch if it is selected, and the step as well. -/
def inject (flip : Nat) (t : Table Diagram) (k : Candidate) : Table Diagram :=
  (t.setLatch? c k.1.index ((t.read k.1.signal).xor ((Diagram.ofVar k.2).and (.ofVar flip)))).getD t

/-- Evaluates the gates of the next step. -/
def Runs.step (first : Nat) (remaining : List Candidate) (levels : List Level) (r : Runs) :
    Except SolverError Runs :=
  match r.faulty.applyLevels c levels with
  | (.error e, _) => .error e
  | (.ok (), faulty) =>
    let faulty := (remaining.foldl (inject c (first + r.time)) faulty).settle c
    .ok {
      golden := r.golden.step c (levels.map Level.toBool)
      faulty
      quiet := r.quiet.and (faulty.alarm c).not
      flips := r.flips.add (first + r.time)
      time := r.time + 1 }

def Runs.advance (r : Runs) : Runs :=
  { r with golden := r.golden.advance c, faulty := r.faulty.advance c }

/-- The faults under which some output differs from its golden value. -/
def Runs.differs (r : Runs) : Diagram :=
  ((r.faulty.observed c).zip (r.golden.observed c)).foldl
    (fun d (out, ok) => d.or (if ok then out.not else out)) (.leaf false)

/-- What has been found so far. -/
structure Findings where
  remaining : List Candidate
  /-- Excludes the latches found. -/
  allowed : Diagram
  traces : List ErrorTrace

section Search

variable (chooser : Diagram.Chooser)

/-- The latches of one satisfying assignment after the other, with the step of the flip among
the first `time` steps. A latch is excluded once it is found. -/
def witnesses (all : List Candidate) (time : Nat) :
    (limit : Nat) → Diagram → List (Candidate × Nat)
  | 0, _ => []
  | limit + 1, d =>
    match chooser.choose? d with
    | none => []
    | some ρ =>
      match all.find? fun k => ρ k.2 with
      | none => []
      | some k =>
        (k, ((List.range time).find? fun i => ρ (all.length + i)).getD (time - 1))
          :: witnesses all time limit (d.and (Diagram.ofVar k.2).not)

/-- Records the latches that show an error in the current step. -/
def Findings.record (all : List Candidate) (location : Diagram) (inputs : List (List Bool))
    (r : Runs) (f : Findings) : Findings :=
  let found := witnesses chooser all r.time all.length
    ((((r.quiet.and (r.differs c)).and location).and r.flips.single).and f.allowed)
  { remaining := f.remaining.filter fun k => !found.any fun w => w.1.1 = k.1
    allowed := found.foldl (fun d w => d.and (Diagram.ofVar w.1.2).not) f.allowed
    traces := f.traces ++ found.map fun (k, flip) =>
      { latch := k.1.signal, flip, error := r.time - 1, inputs := inputs.take r.time } }

def onSteps (all : List Candidate) (location : Diagram) (inputs : List (List Bool)) :
    List (List Level) → Runs → Findings → Except SolverError Findings
  | [], _, f => .ok f
  | levels :: rest, r, f =>
    if f.remaining.isEmpty then .ok f
    else do
      let r ← r.step c all.length f.remaining levels
      onSteps all location inputs rest (r.advance c) (f.record c chooser all location inputs r)

def onStimuli (all : List Candidate) (location : Diagram) :
    List Stimulus → Findings → Except SolverError Findings
  | [], f => .ok f
  | s :: rest, f => do
    let f ← onSteps c chooser all location s.bools s.steps (Runs.initial c) f
    onStimuli all location rest f

end Search

/-- The number of diagram variables: one for each latch, and one for each step of the longest
stimulus. -/
def variableCount (checked : List Component) (stimuli : List Stimulus) : Nat :=
  checked.length + (stimuli.map Stimulus.length).foldl max 0

def analyze (o : Options) (stimuli : List Stimulus) (chooser : Diagram.Chooser := .lowFirst) :
    Except AnalysisError Report := do
  requireAlarm c
  checkStimuli c true stimuli
  let checked ← checkedLatches c o.reserved
  let total := variableCount checked stimuli
  if Diagram.variableBound < total then
    .error (.solver (.variableOutOfRange total Diagram.variableBound))
  if Diagram.maxVariables < total then .error .tooLarge
  let all := candidates checked
  let f ← (onStimuli c chooser all (location all) stimuli ⟨all, .leaf true, []⟩).mapError .solver
  return .ofTraces o f.traces

end SoftError.Vulnerability.Diagrammatic

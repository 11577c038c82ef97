import SoftError.Decision.Backend
import SoftError.Superfluous.Runs

/-!
# Superfluous alarms

An alarm is superfluous if a flip raises it although every relevant output stays correct
and the faulty state joins the golden one again. The search stops at the first alarm of a
golden run.
-/

namespace SoftError.Superfluous

variable {σ : Type} [DecisionProcedure σ]

/-- Runs through the steps that are left. Returns the traces and, if the golden alarm was
raised, the step where it was. -/
def onSteps (p : Problem) (location : Location) (s : Stimulus) :
    List (List Level) → Runs → Deciding σ SolverError (List SuperfluousTrace × Option Nat)
  | [], _ => return ([], none)
  | levels :: rest, r =>
    match r.step p location s levels with
    | none => return ([], some r.time)
    | some (extension, r) => do
      extension.checks.forM Deciding.addFolded
      Deciding.addCnf extension.clauses
      Deciding.addFolded extension.alarm
      let found ← Deciding.enumerate extension.assumptions (r.interest location)
        (r.read location s) (r.choices location)
      let (more, raised) ← onSteps p location s rest (r.advance p)
      return (extension.immediate.toList ++ found ++ more, raised)

/-- One session over one stimulus. -/
def onStimulus (p : Problem) (location : Location) (e : Encoder) (s : Stimulus) :
    Deciding σ SolverError (List SuperfluousTrace × Option Nat) := do
  Deciding.start location.selectors false
  Deciding.addUnit .top
  let result ← onSteps p location s s.steps (.initial p (e.atMostOne location.selectors))
  Deciding.finish
  return result

/-- Searches every location on every stimulus, up to the first golden alarm. -/
def onRuns (p : Problem) :
    List (Location × Encoder × Nat × Stimulus) → Deciding σ SolverError Report
  | [] => return ⟨[], none⟩
  | (location, e, index, s) :: rest => do
    match ← onStimulus p location e s with
    | (traces, some step) => return ⟨traces, some ⟨index, step⟩⟩
    | (traces, none) =>
      let report ← onRuns p rest
      return { report with traces := traces ++ report.traces }

/-- The locations, each with an encoder past the variables of its selectors. -/
def locations (p : Problem) (checked : List Component) : List (Location × Encoder) :=
  if p.mode.symbolicLocation then
    let (selectors, e) := Encoder.caching.freshList checked.length
    [(.selected (checked.zip selectors), e)]
  else checked.map fun k => (.fixed k, .caching)

def runs (p : Problem) (checked : List Component) (stimuli : List Stimulus) :
    List (Location × Encoder × Nat × Stimulus) :=
  (locations p checked).flatMap fun (location, e) =>
    stimuli.mapIdx fun index s => (location, e, index, s)

def analyze (p : Problem) (stimuli : List Stimulus) : Deciding σ AnalysisError Report := do
  MonadExcept.ofExcept (checkStimuli p.circuit p.mode.freeInputs stimuli)
  let checked ← MonadExcept.ofExcept (checkedLatches p.circuit p.reserved)
  (onRuns p (runs p checked stimuli)).adapt .solver

/-- An environment reads the inputs and all outputs, and judges at least the outputs apart
from the alarm. -/
def checkEnvironment (c env : Circuit) : Except AnalysisError Unit :=
  let inputs := c.inputs.length + c.outputs.length
  let outputs := c.outputs.length - 1
  if env.inputs.length ≠ inputs then .error (.environmentInputs inputs env.inputs.length)
  else if env.outputs.length < outputs then .error (.environmentOutputs outputs env.outputs.length)
  else .ok ()

/-- A problem whose circuit has an alarm and whose environment fits. -/
def Problem.make (c : Circuit) (environment : Option Circuit) (mode : Mode) (o : Options) :
    Except AnalysisError Problem := do
  requireAlarm c
  environment.forM (checkEnvironment c)
  return ⟨c, environment, mode, o.reserved⟩

/-- Diagrams do not support free inputs. -/
def checkBackend (mode : Mode) (o : Options) : Except AnalysisError Unit :=
  if mode.freeInputs && o.backend = .diagram then .error (.solver .freeInputs) else .ok ()

/-- The analysis with the procedure that the options ask for. -/
def report (c : Circuit) (environment : Option Circuit) (mode : Mode) (o : Options)
    (stimuli : List Stimulus) : Except AnalysisError Report := do
  checkBackend mode o
  let p ← Problem.make c environment mode o
  o.decide (analyze p stimuli)

end SoftError.Superfluous

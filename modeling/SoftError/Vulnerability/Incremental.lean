import SoftError.Decision.Procedure
import SoftError.Fault.Component
import SoftError.Unrolling.Basic
import SoftError.Vulnerability.Report

/-!
# Vulnerabilities by incremental solving

Latch and time of the flip are chosen by the solver: there is a selector for each latch
and one for each step, and a latch is flipped at a step if both are selected. Every
stimulus has a session of its own, in which the runs grow step by step. The latches found
in a step are excluded from then on.
-/

namespace SoftError.Vulnerability.Incremental

variable (c : Circuit)

/-- A latch with its selector. -/
abbrev Candidate := Component × Lit

/-- The two runs on one stimulus. -/
structure Runs where
  encoder : Encoder
  golden : Unrolling
  faulty : Unrolling
  /-- The selectors of the steps. -/
  flips : List Lit := []
  /-- The literals that switch off the output checks of the earlier steps. -/
  done : List Lit := []
  /-- The literals of the inputs at each step. -/
  inputs : List (List Lit) := []

def Runs.initial (e : Encoder) : Runs where
  encoder := e
  golden := .initial c
  faulty := .initial c

/-- Flips the candidates under their selectors and that of the step. -/
def inject (flip : Lit) : List Candidate → Unrolling → Encoder → Unrolling × Encoder
  | [], u, e => (u, e)
  | (k, selector) :: rest, u, e =>
    let (l, e) := e.flipIf (u.read k.signal) selector flip
    inject flip rest (u.setLatch c k.index l) e

/-- What a step adds to a session. -/
structure Extension where
  clauses : Cnf
  /-- Some output differs, unless the check is switched off. -/
  difference : Clause
  /-- Switches off the output check. -/
  off : Lit

/-- Encodes the next step of both runs. A golden alarm that is not constant stays low, and
so does the faulty alarm. -/
def Runs.step (remaining : List Candidate) (levels : List Level) (r : Runs) : Extension × Runs :=
  let (golden, e) := r.golden.applyLevels c levels r.encoder
  let (golden, e) := golden.step c e
  let alarm := golden.alarm c
  let e := if alarm.isConstant then e else e.add [[-alarm]]
  let inputs := golden.inputs c
  let (flip, e) := e.fresh
  let (faulty, e) := inject c flip remaining (r.faulty.setInputs c inputs) e
  let e := e.add (r.flips.map fun earlier => [-flip, -earlier])
  let (faulty, e) := faulty.step c e
  let e := e.add [[-faulty.alarm c]]
  let (difference, e) := e.differs (golden.observed c) (faulty.observed c)
  let (off, e) := e.fresh
  let (clauses, e) := e.take
  (⟨clauses, difference ++ [off], off⟩,
   { encoder := e, golden, faulty, flips := r.flips ++ [flip], done := r.done
     inputs := r.inputs ++ [inputs] })

/-- Moves on to the next state, after the output check of the step. -/
def Runs.advance (off : Lit) (r : Runs) : Runs :=
  { r with golden := r.golden.advance c, faulty := r.faulty.advance c, done := r.done ++ [off] }

/-- The variables that a trace is read from. -/
def Runs.interest (all : List Candidate) (r : Runs) : List Lit :=
  all.map Prod.snd ++ r.flips ++ r.golden.opened

/-- The latch selected by a model, excluded from then on, and its trace. A model without a
selected latch is not read. -/
def Runs.read (all : List Candidate) (s : Stimulus) (r : Runs) (m : Model) :
    Option (Clause × ErrorTrace) :=
  (all.find? fun k => m.isTrue k.2).map fun (k, selector) =>
    let error := r.flips.length - 1
    ([-selector],
     { latch := k.signal, flip := (r.flips.findIdx? m.isTrue).getD error, error
       inputs := ((s.take r.flips.length).settle r.inputs m).bools })

/-- The candidates without a trace. -/
def without (traces : List ErrorTrace) (ks : List Candidate) : List Candidate :=
  ks.filter fun k => !traces.any fun t => t.latch = k.1.signal

variable {σ : Type} [DecisionProcedure σ]

/-- Runs through the steps that are left, and returns the traces found. -/
def onSteps (all : List Candidate) (s : Stimulus) :
    List (List Level) → Runs → (remaining : List Candidate) →
      Deciding σ SolverError (List ErrorTrace)
  | [], _, _ => return []
  | levels :: rest, r, remaining => do
    let (extension, r) := r.step c remaining levels
    Deciding.addCnf extension.clauses
    Deciding.addFolded extension.difference
    let found ← Deciding.enumerate (r.done ++ [-extension.off]) (r.interest all)
      (r.read all s) all.length
    let remaining := without found remaining
    if remaining.isEmpty then return found
    let more ← onSteps all s rest (r.advance c extension.off) remaining
    return found ++ more

/-- Searches one stimulus after the other, as long as there are candidates left. -/
def onStimuli (all : List Candidate) (pool : VarPool) :
    List Stimulus → (remaining : List Candidate) → Deciding σ SolverError (List ErrorTrace)
  | [], _ => return []
  | s :: rest, remaining => do
    if remaining.isEmpty then return []
    let selectors := all.map Prod.snd
    Deciding.start selectors false
    Deciding.addUnit .top
    let e := ({ pool : Encoder }).atMostOne selectors
    let found ← onSteps c all s s.steps (.initial c e) remaining
    Deciding.finish
    let more ← onStimuli all pool rest (without found remaining)
    return found ++ more

/-- The traces of the vulnerable latches. -/
def search (checked : List Component) (stimuli : List Stimulus) :
    Deciding σ SolverError (List ErrorTrace) :=
  let (selectors, pool) := VarPool.initial.freshList checked.length
  let all := checked.zip selectors
  onStimuli c all pool stimuli all

def analyze (o : Options) (stimuli : List Stimulus) : Deciding σ AnalysisError Report := do
  MonadExcept.ofExcept (checkStimuli c true stimuli)
  let checked ← MonadExcept.ofExcept (checkedLatches c o.reserved)
  let traces ← (search c checked stimuli).adapt .solver
  return .ofTraces o traces

end SoftError.Vulnerability.Incremental

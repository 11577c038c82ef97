import SoftError.Decision.Procedure
import SoftError.Fault.Component
import SoftError.Unrolling.Basic

/-!
# Protection within several steps

The golden run is encoded once and shared by all latches. For each latch a faulty run is
put on top of it: the latch is not protected if an output differs before any alarm, or if
no alarm was raised and the states at the end differ.
-/

namespace SoftError.Protection.ManySteps

variable (c : Circuit)

/-- The inputs and the observed outputs of a golden step. -/
structure Step where
  inputs : List Lit
  observed : List Lit

/-- The golden run. -/
structure Golden where
  state : List Lit
  steps : List Step
  /-- The state after the last step. -/
  next : List Lit

/-- Encodes the next steps with arbitrary inputs and without an alarm. -/
def goldenSteps : Nat → Unrolling → Encoder → (List Step × List Lit) × Encoder
  | 0, u, e => (([], u.nextState c), e)
  | k + 1, u, e =>
    let (u, e) := u.openInputs c e
    let (u, e) := u.step c e
    let e := e.add [[-u.alarm c]]
    let step : Step := ⟨u.inputs c, u.observed c⟩
    let ((steps, next), e) := goldenSteps k (if k = 0 then u else u.advance c) e
    ((step :: steps, next), e)

def golden (k : Nat) (e : Encoder) : Golden × Encoder :=
  let (u, e) := (Unrolling.initial c).openState c e
  let ((steps, next), e) := goldenSteps c k u e
  (⟨u.state c, steps, next⟩, e)

/-- Encodes the faulty steps. `quiet` says that no alarm was raised before. There is a
literal for each step, which implies an error in this step and no alarm so far. -/
def faultySteps (goldenNext : List Lit) (compared : Nat) :
    List Step → (quiet : Lit) → Unrolling → Encoder → List Lit × Encoder
  | [], _, _, e => ([], e)
  | step :: rest, quiet, u, e =>
    let (u, e) := (u.setInputs c step.inputs).step c e
    let (quiet, e) := e.and quiet (-u.alarm c)
    let (outputs, e) := e.differs step.observed (u.observed c)
    let (states, e) :=
      if rest.isEmpty then
        e.differs (goldenNext.take compared) ((u.nextState c).take compared)
      else ([], e)
    let (problem, e) := e.fresh
    let e := e.add [outputs ++ states ++ [-problem]]
    let (error, e) := e.and quiet problem
    let (errors, e) := faultySteps goldenNext compared rest quiet
      (if rest.isEmpty then u else u.advance c) e
    (error :: errors, e)

/-- Encodes the run with an inverted latch. -/
def faultyRun (g : Golden) (compared : Nat) (k : Component) (e : Encoder) : List Lit × Encoder :=
  let flipped := g.state.modify k.index (- ·)
  faultySteps c g.next compared g.steps .top ((Unrolling.initial c).setState c flipped) e

/-- The clauses of the run with an inverted latch, and the clause that there is an error. -/
def faulty (g : Golden) (compared : Nat) (k : Component) (e : Encoder) : Cnf × Clause :=
  let (errors, e) := faultyRun c g compared k e
  (e.take.1, errors)

variable {σ : Type} [DecisionProcedure σ]

/-- The protected ones of the latches, where the session has been saved after the golden
run. -/
def onLatches (g : Golden) (compared : Nat) (e : Encoder) :
    List Component → Deciding σ SolverError (List Component)
  | [] => return []
  | k :: rest => do
    let (clauses, errors) := faulty c g compared k e
    Deciding.addCnf clauses
    Deciding.addFolded errors
    let exposed ← DecisionProcedure.check []
    DecisionProcedure.pop
    DecisionProcedure.push
    let more ← onLatches g compared e rest
    return if exposed then more else k :: more

def search (checked : List Component) (compared k : Nat) :
    Deciding σ SolverError (List Component) := do
  Deciding.start [] true
  Deciding.addUnit .top
  let (g, e) := golden c k .caching
  let (clauses, e) := e.take
  Deciding.addCnf clauses
  DecisionProcedure.push
  let result ← onLatches c g compared e checked
  Deciding.finish
  return result

end SoftError.Protection.ManySteps

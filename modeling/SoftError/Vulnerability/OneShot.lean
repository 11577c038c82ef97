import SoftError.Circuit.Evaluation
import SoftError.Decision.Procedure
import SoftError.Encoding.Transition
import SoftError.Fault.Component
import SoftError.Formula.Substitution
import SoftError.Unrolling.Basic
import SoftError.Vulnerability.Report
import Std.Data.TreeMap

/-!
# Vulnerabilities by one-shot solving

One latch is considered at a time, and the solver chooses the time of the flip. The faulty
run is an unrolling of the transition relation: each step is a renamed copy, in which
definite inputs are replaced by their values. Each step ends with a check of the whole
formula.
-/

namespace SoftError.Vulnerability.OneShot

/-- The names of one step: new variables of the relation's variables, and the values of its
definite inputs. -/
structure Names where
  targets : Std.TreeMap Nat Nat
  values : Std.TreeMap Nat Bool

namespace Names

/-- The new variable, `0` if there is none. -/
def target (n : Names) (v : Nat) : Nat := n.targets.getD v 0

/-- The literal of a step that stands for a literal of the relation. -/
def lit (n : Names) (l : Lit) : Lit :=
  match n.values.get? l.var with
  | some b => .ofBool (l.eval b)
  | none => Cnf.renameLit n.target l

/-- The copy of the relation. -/
def copy (n : Names) (relation : Cnf) : Except FormulaError Cnf :=
  match relation.rename n.target with
  | .error v => .error (.missingName v)
  | .ok f => .ok (n.values.toList.foldl (fun f (v, b) => assumeVar (n.target v) b f) f)
where
  assumeVar (v : Nat) (b : Bool) (f : Cnf) : Cnf :=
    match Lit.ofVar? v with
    | none => f
    | some l => f.assume (l.withSign b)

end Names

/-- The runs on one stimulus, with the latch flipped at an unknown step. -/
structure Runs where
  encoder : Encoder := .plain
  unrolled : Cnf := [Transition.constant]
  golden : Unrolling
  /-- The golden run without a solver, as long as all inputs are definite. -/
  concrete : Option (Table Bool)
  /-- Whether the concrete run has raised the alarm. -/
  alarmed : Bool := false
  /-- The faulty state. -/
  state : List Lit
  flips : List Lit := []
  opened : List Lit := []
  inputs : List (List Lit) := []

variable (c : Circuit)

def Runs.initial : Runs :=
  let golden := Unrolling.initial c
  { golden, concrete := some (.initial c), state := golden.state c }

/-- Names the latches. Each is equal to its value in the current state, except that the flip
inverts the latch under consideration. -/
def nameLatches (index : Nat) (flip : Lit) : (i : Nat) → List (Lit × Lit) → Encoder →
    List (Nat × Nat) × Encoder
  | _, [], e => ([], e)
  | i, (latch, value) :: rest, e =>
    let (value, e) := if i = index then e.flip value flip else (value, e)
    let (name, e) := e.fresh
    let (names, e) := nameLatches index flip (i + 1) rest (e.equal name value)
    ((latch.var, name.var) :: names, e)

def nameInputs (inputs : List (Lit × Level)) (e : Encoder) :
    (List (Nat × Nat) × List (Nat × Bool) × List Lit) × Encoder :=
  let (names, e) := e.freshList inputs.length
  let named := inputs.zip names
  ((named.map fun ((l, _), name) => (l.var, name.var),
    named.filterMap fun ((l, v), _) => v.toBool?.map (l.var, ·),
    named.filterMap fun ((_, v), name) => if v = .free then some name else none), e)

def nameGates (e : Encoder) : List (Nat × Nat) × Encoder :=
  let (names, e) := e.freshList c.gates.length
  ((c.gates.zip names).map fun (g, name) => (g.out.lit.var, name.var), e)

/-- The concrete golden values of the next step. -/
def Runs.settled (levels : List Level) (r : Runs) : Option (Table Bool) :=
  if levels.any (· = .free) then none
  else r.concrete.map fun t => t.step c (levels.map Level.toBool)

/-- Whether a flip in the current step is visible in the concrete run right away. -/
def visible (k : Component) (t : Table Bool) : Bool :=
  let flipped := (t.flip c k.index).settle c
  !flipped.alarm c && flipped.observed c ≠ t.observed c

/-- Encodes the next step of both runs, and returns the formula that checks its outputs. -/
def Runs.step (t : Transition) (k : Component) (levels : List Level) (r : Runs) :
    Except FormulaError (Cnf × Names × Runs) := do
  let (flip, e) := r.encoder.fresh
  let (latches, e) := nameLatches k.index flip 0 (t.state.zip r.state) e
  let ((inputs, values, opened), e) := nameInputs (t.inputs.zip levels) e
  let (gates, e) := nameGates c e
  let names : Names := ⟨.ofList ((1, 1) :: latches ++ inputs ++ gates), .ofList values⟩
  let copy ← names.copy t.relation
  let inputLits := t.inputs.map names.lit
  let (golden, e) := (r.golden.setInputs c inputLits).step c e
  let alarm := golden.alarm c
  let e := if alarm.isConstant then e else e.add [[-alarm]]
  let (difference, e) := e.differs (golden.observed c) (t.outputs.map names.lit)
  let (clauses, e) := e.take
  let unrolled := r.unrolled ++ copy ++ clauses ++ (Clause.fold [-names.lit t.alarm]).toList
    ++ r.flips.map fun earlier => [-flip, -earlier]
  return (unrolled ++ (Clause.fold difference).toList, names,
    { r with
      encoder := e, unrolled, golden, flips := r.flips ++ [flip]
      opened := r.opened ++ opened, inputs := r.inputs ++ [inputLits] })

/-- Moves on to the next state, where `concrete` has the concrete values of the step. -/
def Runs.advance (t : Transition) (names : Names) (concrete : Option (Table Bool)) (r : Runs) :
    Runs :=
  { r with
    golden := r.golden.advance c
    concrete := concrete.map (·.advance c)
    alarmed := r.alarmed || concrete.any (·.alarm c)
    state := t.next.map names.lit }

/-- The trace shown by a model. -/
def Runs.trace (k : Component) (s : Stimulus) (r : Runs) (m : Model) : ErrorTrace :=
  let error := r.flips.length - 1
  { latch := k.signal, flip := (r.flips.findIdx? m.isTrue).getD error, error
    inputs := ((s.take r.flips.length).settle r.inputs m).bools }

variable {σ : Type} [DecisionProcedure σ]

/-- Runs through the steps that are left until a trace is found. -/
def onSteps (t : Transition) (k : Component) (s : Stimulus) :
    List (List Level) → Runs → Deciding σ AnalysisError (Option ErrorTrace)
  | [], _ => return none
  | levels :: rest, r => do
    let time := r.flips.length
    let concrete := r.settled c levels
    if !r.alarmed && concrete.any (visible c k) then
      return some { latch := k.signal, flip := time, error := time
                    inputs := s.bools.take (time + 1) }
    let (formula, names, r) ← MonadExcept.ofExcept ((r.step c t k levels).mapError .formula)
    match ← (DecisionProcedure.solve formula [] (r.flips ++ r.opened)).adapt .solver with
    | .sat model => return some (r.trace k s ⟨model⟩)
    | .unsat _ => onSteps t k s rest (r.advance c t names concrete)

/-- The first trace of a latch. -/
def onStimuli (t : Transition) (k : Component) :
    List Stimulus → Deciding σ AnalysisError (Option ErrorTrace)
  | [] => return none
  | s :: rest => do
    match ← onSteps c t k s s.steps (.initial c) with
    | some trace => return some trace
    | none => onStimuli t k rest

def onLatches (t : Transition) (stimuli : List Stimulus) :
    List Component → Deciding σ AnalysisError (List ErrorTrace)
  | [] => return []
  | k :: rest => do
    let found ← onStimuli c t k stimuli
    let more ← onLatches t stimuli rest
    return found.toList ++ more

def analyze (o : Options) (stimuli : List Stimulus) : Deciding σ AnalysisError Report := do
  MonadExcept.ofExcept (checkStimuli c true stimuli)
  let t ← MonadExcept.ofExcept ((Transition.ofCircuit c).mapError .circuit)
  let checked ← MonadExcept.ofExcept (checkedLatches c o.reserved)
  let traces ← onLatches c t stimuli checked
  return .ofTraces o traces

end SoftError.Vulnerability.OneShot

import SoftError.Decision.Procedure
import SoftError.Decision.Refinement
import SoftError.Diagram.Chooser
import SoftError.Diagram.Sharing
import SoftError.Options

/-!
# Sessions decided by diagrams

The session is a stack of decision diagrams, each the conjunction of its clauses. Only
variables up to a fixed capacity have a place in the order of a diagram.
-/

namespace SoftError

structure DiagramSession where
  capacity : Nat
  /-- The diagrams, the current one first. There is none without a session. -/
  frames : List Diagram := []
  nested : Bool := false
  randomModels : Bool
  coins : Coins
  chooser : Diagram.Chooser := .lowFirst

namespace DiagramSession

/-- The capacity unless another one is asked for. -/
def defaultCapacity : Nat := 4096

def ofOptions (capacity : Nat) (o : Options) : DiagramSession where
  capacity
  randomModels := o.randomModels
  coins := .ofGenerator ⟨o.seed⟩

/-- The session of a given capacity, unless diagrams cannot have as many variables. -/
def ofCapacity? (capacity : Nat) (o : Options) : Option DiagramSession :=
  if capacity ≤ Diagram.maxVariables then some (ofOptions capacity o) else none

/-- Refuses a literal beyond the capacity. -/
def literal (capacity : Nat) (l : Lit) : Except SolverError Diagram :=
  if capacity < l.var then .error (.variableOutOfRange l.var capacity) else .ok (.ofLit l)

def clause (capacity : Nat) (c : Clause) : Except SolverError Diagram :=
  c.foldlM (fun d l => return d.or (← literal capacity l)) (.leaf false)

def cube (capacity : Nat) (ls : List Lit) : Except SolverError Diagram :=
  ls.foldlM (fun d l => return d.and (← literal capacity l)) (.leaf true)

/-- Whether all literals of a clause have a place. -/
def fits (capacity : Nat) (c : Clause) : Bool := c.all fun l => l.var ≤ capacity

/-- The diagram of a formula. The clauses after a contradiction are not looked at. -/
def formula (capacity : Nat) (f : Cnf) : Except SolverError Diagram := do
  let (first, rest) := f.span (fits capacity)
  let d := .conjunction (← first.mapM (clause capacity))
  if d.isFalse then return d
  let _ ← rest.head?.mapM (clause capacity)
  return d

/-- The literals of the variables of interest under an assignment. -/
def model (capacity : Nat) (ρ : Assignment) (interest : List Lit) :
    Except SolverError (List Lit) :=
  interest.mapM fun l => do
    let _ ← literal capacity l
    return l.withSign (ρ l.var)

/-- Whether a diagram contradicts a cube. -/
def contradicts (d : Diagram) (ls : List Lit) : Bool :=
  (d.and (.conjunction (ls.map .ofLit))).isFalse

/-- Checks `d` under both kinds of assumptions. -/
def decideUnder (d : Diagram) (core more interest : List Lit) (s : DiagramSession) :
    Except SolverError (Answer × DiagramSession) := do
  let more := d.and (← cube s.capacity more)
  let all := more.and (← cube s.capacity core)
  match s.chooser.choose? all with
  | none => return (.unsat (minimizeCore (contradicts more) core), s)
  | some ρ =>
    let model ← model s.capacity ρ interest
    if s.randomModels then
      let (model, coins) := randomizeModel (fun ls => !contradicts all ls) model s.coins
      return (.sat model, { s with coins })
    else return (.sat model, s)

def top : Deciding DiagramSession SolverError Diagram := do
  match (← get).frames with
  | [] => throw .noSession
  | d :: _ => return d

def solveUnder (d : Diagram) (core more interest : List Lit) :
    Deciding DiagramSession SolverError Answer := do
  let (answer, s) ← MonadExcept.ofExcept (decideUnder d core more interest (← get))
  set s
  return answer

def addClause (c : Clause) : Deciding DiagramSession SolverError Unit := do
  let s ← get
  let d ← MonadExcept.ofExcept (clause s.capacity c)
  match s.frames with
  | [] => throw .noSession
  | e :: rest => set { s with frames := e.and d :: rest }

def check (assumptions : List Lit) : Deciding DiagramSession SolverError Bool := do
  let d ← MonadExcept.ofExcept (cube (← get).capacity assumptions)
  return !((← top).and d).isFalse

def push : Deciding DiagramSession SolverError Unit := do
  let s ← get
  match s.frames with
  | [] => throw .noSession
  | d :: rest =>
    if s.nested then set { s with frames := d :: d :: rest } else throw .pushPopDisabled

def pop : Deciding DiagramSession SolverError Unit := do
  let s ← get
  match s.frames with
  | [] => throw .noSession
  | [_] => throw .nothingToPop
  | _ :: rest => set { s with frames := rest }

instance : DecisionProcedure DiagramSession where
  isSat f := do
    let d ← MonadExcept.ofExcept (formula (← get).capacity f)
    return !d.isFalse
  solve f assumptions interest := do
    let d ← MonadExcept.ofExcept (formula (← get).capacity f)
    solveUnder d assumptions [] interest
  start _ nested s := { s with frames := [.leaf true], nested }
  finish s := { s with frames := [] }
  isOpen s := !s.frames.isEmpty
  keep l := do
    let _ ← top
    let _ ← MonadExcept.ofExcept (literal (← get).capacity l)
  addClause := addClause
  check := check
  query core more interest := do
    let d ← top
    solveUnder d core more interest
  push := push
  pop := pop
  backlog _ := 0

end DiagramSession

end SoftError

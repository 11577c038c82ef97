import SoftError.Decision.Procedure
import SoftError.Decision.Solver
import SoftError.Options

/-!
# Sessions decided by search

The session is a stack of problems. Saving it puts a new problem on top, to which the clauses
of the old one are told once more. They are remembered for that, but only in a session that
may be saved. Clauses are added to the topmost problem only.
-/

namespace SoftError

namespace SearchSession

/-- A problem with the log of its clauses. -/
structure Frame (nested : Bool) where
  problem : Problem
  /-- The clauses, the latest one first. They are complete if the session may be saved. -/
  log : Cnf
  complete : nested = true → log = problem.formula

namespace Frame

variable {nested : Bool}

def empty : Frame nested := ⟨.empty, [], fun _ => rfl⟩

def add (c : Clause) (f : Frame nested) : Frame nested where
  problem := f.problem.add c
  log := if nested then c :: f.log else f.log
  complete := by
    rintro rfl
    exact congrArg (c :: ·) (f.complete rfl)

/-- A new problem with the clauses of the log. -/
def replay (f : Frame nested) : Frame nested where
  problem := .ofCnf f.log
  log := f.log
  complete _ := (Problem.formula_ofCnf f.log).symm

end Frame

end SearchSession

structure SearchSession where
  nested : Bool := false
  /-- The problems, the current one first. There is none without a session. -/
  frames : List (SearchSession.Frame nested) := []
  kept : List Lit := []
  randomModels : Bool
  minimalCores : Bool
  coins : Coins
  blame : Blame := .all
  solver : Solver := .learning

namespace SearchSession

def ofOptions (o : Options) : SearchSession where
  randomModels := o.randomModels
  minimalCores := o.minimalCores
  coins := .ofGenerator ⟨o.seed⟩

/-- Checks `p` under both kinds of assumptions. -/
def decideUnder (p : Problem) (core more interest : List Lit) (s : SearchSession) :
    Answer × SearchSession :=
  match s.solver.solve p (core ++ more) with
  | some m =>
    let model := modelLits m.value interest
    if s.randomModels then
      let (model, coins) :=
        randomizeModel (fun ls => s.solver.sat p (core ++ more ++ ls)) model s.coins
      (.sat model, { s with coins })
    else (.sat model, s)
  | none =>
    let used := core.filter (s.blame.uses p.formula core more)
    if s.minimalCores then
      (.unsat (minimizeCore (fun ls => !s.solver.sat p (ls ++ more)) used), s)
    else (.unsat used, s)

def top : Deciding SearchSession SolverError Problem := do
  match (← get).frames with
  | [] => throw .noSession
  | f :: _ => return f.problem

def addClause (c : Clause) : Deciding SearchSession SolverError Unit := do
  let s ← get
  match s.frames with
  | [] => throw .noSession
  | f :: rest => set { s with frames := f.add c :: rest }

def push : Deciding SearchSession SolverError Unit := do
  let s ← get
  match s.frames with
  | [] => throw .noSession
  | f :: rest =>
    if s.nested then set { s with frames := f.replay :: f :: rest } else throw .pushPopDisabled

def pop : Deciding SearchSession SolverError Unit := do
  let s ← get
  match s.frames with
  | [] => throw .noSession
  | [_] => throw .nothingToPop
  | _ :: rest => set { s with frames := rest }

instance : DecisionProcedure SearchSession where
  isSat f := return (← get).solver.sat (.ofCnf f) []
  solve f assumptions interest := modifyGet (decideUnder (.ofCnf f) assumptions [] interest)
  start keep nested s := { s with nested, frames := [.empty], kept := keep }
  finish s := { s with frames := [], kept := [] }
  isOpen s := !s.frames.isEmpty
  keep l := do
    let _ ← top
    modify fun s => { s with kept := s.kept ++ [l] }
  addClause := addClause
  check assumptions := do
    let p ← top
    return (← get).solver.sat p assumptions
  query core more interest := do
    let p ← top
    modifyGet (decideUnder p core more interest)
  push := push
  pop := pop
  backlog _ := 0

end SearchSession

end SoftError

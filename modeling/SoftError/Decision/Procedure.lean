import SoftError.Decision.Error
import SoftError.Formula.Basic
import SoftError.Formula.Model

/-!
# Decision procedures

A decision procedure checks whole formulas, and holds a session in which clauses are added
and checked under assumptions. A session may be saved and restored like a stack. Without
an open session every incremental operation fails.
-/

namespace SoftError

/-- The outcome of a check. -/
inductive Answer where
  /-- A literal for each variable of interest, in order. -/
  | sat (model : List Lit)
  /-- Assumptions that already contradict the formula. -/
  | unsat (core : List Lit)
deriving DecidableEq

/-- Computations that use a procedure with states in `σ` and may fail. -/
abbrev Deciding (σ ε : Type) := ExceptT ε (StateM σ)

class DecisionProcedure (σ : Type) where
  isSat (f : Cnf) : Deciding σ SolverError Bool
  solve (f : Cnf) (assumptions interest : List Lit) : Deciding σ SolverError Answer
  /-- Opens a session in place of any other. -/
  start (keep : List Lit) (nested : Bool) : σ → σ
  finish : σ → σ
  isOpen : σ → Bool
  /-- Announces a variable whose value will be asked for. -/
  keep (l : Lit) : Deciding σ SolverError Unit
  addClause (c : Clause) : Deciding σ SolverError Unit
  check (assumptions : List Lit) : Deciding σ SolverError Bool
  /-- A check with two kinds of assumptions, of which only the first appear in a core. -/
  query (core more interest : List Lit) : Deciding σ SolverError Answer
  push : Deciding σ SolverError Unit
  pop : Deciding σ SolverError Unit
  /-- How many answers are laid down regardless of the clauses. -/
  backlog : σ → Nat

namespace Deciding

variable {σ ε : Type} [DecisionProcedure σ]

def start (keep : List Lit) (nested : Bool) : Deciding σ ε Unit :=
  modifyThe σ (DecisionProcedure.start keep nested)

def finish : Deciding σ ε Unit := modifyThe σ DecisionProcedure.finish

def addClause (c : Clause) : Deciding σ SolverError Unit := DecisionProcedure.addClause c

def addUnit (l : Lit) : Deciding σ SolverError Unit := addClause [l]

/-- Adds each literal as a unit clause. -/
def addCube (ls : List Lit) : Deciding σ SolverError Unit := ls.forM addUnit

/-- Adds the negation of a cube as one clause. -/
def addNegated (ls : List Lit) : Deciding σ SolverError Unit := addClause (Clause.negate ls)

def addCnf (f : Cnf) : Deciding σ SolverError Unit := f.forM addClause

/-- Adds a clause without its constants, unless one of them satisfies it. -/
def addFolded (c : Clause) : Deciding σ SolverError Unit :=
  match c.fold with
  | none => pure ()
  | some c => addClause c

/-- Collects what `read` makes of one model after the other. Each reading comes with a
clause that blocks it, and the first model that `read` refuses ends the enumeration. -/
def enumerateUpTo {β : Type} (assumptions interest : List Lit)
    (read : Model → Option (Clause × β)) : (limit : Nat) → Deciding σ SolverError (List β)
  | 0 => throw .unknown
  | limit + 1 => do
    match ← DecisionProcedure.query assumptions [] interest with
    | .unsat _ => return []
    | .sat model =>
      match read ⟨model⟩ with
      | none => return []
      | some (block, reading) =>
        addClause block
        let rest ← enumerateUpTo assumptions interest read limit
        return reading :: rest

/-- Enumerates the readings, of which a sound procedure yields at most `candidates`. -/
def enumerate {β : Type} (assumptions interest : List Lit)
    (read : Model → Option (Clause × β)) (candidates : Nat) :
    Deciding σ SolverError (List β) := do
  let s ← getThe σ
  enumerateUpTo assumptions interest read (candidates + DecisionProcedure.backlog s + 1)

end Deciding

end SoftError

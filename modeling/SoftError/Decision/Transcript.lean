import SoftError.Decision.Procedure

/-!
# Scripted answers

A procedure that decides nothing. It answers from a script and writes down every call, so
that the calls of an analysis can be inspected.
-/

namespace SoftError

/-- One entry of a script. -/
inductive Response where
  /-- The variables of interest at these positions are true, the others false. -/
  | sat (positions : List Nat)
  | unsat
  | unknown
deriving DecidableEq

/-- A recorded call. -/
inductive Call where
  | start (keep : List Lit) (nested : Bool)
  | finish
  | keep (l : Lit)
  | clause (c : Clause)
  | query (core more interest : List Lit)
  | oneShot (f : Cnf) (assumptions interest : List Lit)
  | isSat (f : Cnf)
  | check (assumptions : List Lit)
  | push
  | pop
deriving DecidableEq

structure Transcript where
  script : List Response
  calls : Array Call := #[]
  running : Bool := false

namespace Transcript

def record (call : Call) (t : Transcript) : Transcript := { t with calls := t.calls.push call }

def log (call : Call) : Deciding Transcript SolverError Unit := modify (record call)

/-- Takes the next entry of the script, which answers `unsat` when it is used up. -/
def next (interest : List Lit) : Deciding Transcript SolverError Answer := do
  let t ← get
  set { t with script := t.script.tail }
  match t.script with
  | .sat positions :: _ =>
    return .sat (interest.mapIdx fun i l => l.withSign (i ∈ positions))
  | .unknown :: _ => throw .unknown
  | _ => return .unsat []

def isSatAnswer : Answer → Bool
  | .sat _ => true
  | .unsat _ => false

instance : DecisionProcedure Transcript where
  isSat f := do
    log (.isSat f)
    return isSatAnswer (← next [])
  solve f assumptions interest := do
    log (.oneShot f assumptions interest)
    next interest
  start keep nested t := { record (.start keep nested) t with running := true }
  finish t := { record .finish t with running := false }
  isOpen := running
  keep l := log (.keep l)
  addClause c := log (.clause c)
  check assumptions := do
    log (.check assumptions)
    return isSatAnswer (← next [])
  query core more interest := do
    log (.query core more interest)
    next interest
  push := log .push
  pop := log .pop
  backlog t := t.script.length

end Transcript

end SoftError

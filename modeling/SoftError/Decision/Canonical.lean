import SoftError.Decision.SearchSession

/-!
# Canonical models

A procedure with a preferred truth value. Its models give each variable of interest, in
order, the preferred value if the values chosen before allow it. Its cores are empty.
-/

namespace SoftError

structure Canonical where
  preferred : Bool
  session : SearchSession

namespace Canonical

def preferring (preferred : Bool) : Canonical := ⟨preferred, .ofOptions {}⟩

/-- Extends the chosen literals by one for each variable of interest. -/
def choose (preferred : Bool) (sat : List Lit → Bool) : (chosen interest : List Lit) → List Lit
  | chosen, [] => chosen
  | chosen, l :: rest =>
    let k := l.withSign preferred
    choose preferred sat (chosen ++ [if sat (chosen ++ [k]) then k else -k]) rest

/-- The canonical answer for a problem under assumptions. -/
def answer (preferred : Bool) (p : Problem) (assumptions interest : List Lit) : Answer :=
  if p.satUnder assumptions then
    .sat (choose preferred (fun ls => p.satUnder (assumptions ++ ls)) [] interest)
  else .unsat []

/-- Runs an operation of the session. -/
def within {α : Type} (m : Deciding SearchSession SolverError α) :
    Deciding Canonical SolverError α := do
  let ⟨preferred, session⟩ ← get
  let (result, session) := m.run.run session
  set (⟨preferred, session⟩ : Canonical)
  MonadExcept.ofExcept result

instance : DecisionProcedure Canonical where
  isSat f := within (DecisionProcedure.isSat f)
  solve f assumptions interest := return answer (← get).preferred (.ofCnf f) assumptions interest
  start keep nested s := { s with session := DecisionProcedure.start keep nested s.session }
  finish s := { s with session := DecisionProcedure.finish s.session }
  isOpen s := DecisionProcedure.isOpen s.session
  keep l := within (DecisionProcedure.keep l)
  addClause c := within (SearchSession.addClause c)
  check assumptions := within (DecisionProcedure.check assumptions)
  query core more interest := do
    let p ← within SearchSession.top
    return answer (← get).preferred p (core ++ more) interest
  push := within SearchSession.push
  pop := within SearchSession.pop
  backlog _ := 0

end Canonical

end SoftError

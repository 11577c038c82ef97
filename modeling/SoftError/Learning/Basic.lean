import SoftError.Learning.Conflict
import SoftError.Learning.Propagation

/-!
# Satisfiability by clause learning

The search decides one variable after the other and propagates. A conflict teaches a clause
and takes decisions back. The outcome comes with its justification: a model is checked
against the formula, and a refutation is the empty clause as a consequence of it.
-/

namespace SoftError.Learning

/-- How a search for a model ends. -/
inductive Outcome (f : Cnf) where
  | model (ρ : Assignment) (holds : f.holds ρ = true)
  | refuted (fact : Consequence f) (empty : fact.clause = [])
  /-- The effort was spent. -/
  | open_

variable {f : Cnf}

/-- What is known of a formula before any decision: a contradiction, or a state in which
nothing is left to propagate. -/
abbrev Progress (f : Cnf) := Except (Consequence f) (State f)

namespace State

/-- Whether an ordered clause has a variable in both polarities. -/
def isTautology : Clause → Bool
  | a :: b :: c => a.var = b.var || isTautology (b :: c)
  | _ => false

/-- Propagates before any decision. A violated fact leads to the empty clause. -/
def settle (s : State f) : Progress f :=
  match propagate (s.names.size + 1) s with
  | (0, s) => .ok s
  | (id + 1, s) => .error (analyze id s).fact

/-- Resolves the literals away that fail before any decision. -/
def reduce (s : State f) (fact : Consequence f) : Consequence f :=
  fact.clause.foldl (fun fact l =>
    let code := s.code l
    match s.statusOf code with
    | .fails => fact.resolve l (s.facts.get (s.reasonOf code - 1))
    | _ => fact) fact

/-- Adds a fact before any decision, without the literals that fail. A fact with a literal
that holds is of no use. -/
def addClause (s : State f) (fact : Consequence f) : Progress f :=
  let s := fact.clause.foldl enter s
  if isTautology fact.clause || fact.clause.any (fun l => s.statusOf (s.code l) = .holds) then
    .ok s
  else
    let fact := s.reduce fact
    match fact.clause with
    | [] => .error fact
    | [l] =>
      let code := s.code l
      let id := s.facts.size
      ((s.addFact fact #[code] 0).assign code (id + 1)).settle
    | c =>
      let codes := (c.map s.code).toArray
      .ok (s.addFact fact codes 0)

def assignment (s : State f) : Assignment := fun v =>
  match s.numbers.get? v with
  | none => false
  | some n => s.statusOf (2 * n) = .holds

/-- Takes the most active variable without a value. -/
def nextDecision : (limit : Nat) → State f → Option (Nat × State f)
  | 0, _ => none
  | limit + 1, s =>
    match s.order.pop? with
    | none => none
    | some (v, order) =>
      let s := { s with order }
      match s.statusOf (2 * v) with
      | .unset => some (2 * v + if s.phases.getD v false then 0 else 1, s)
      | _ => nextDecision limit s

/-- Forgets the learned clauses that span the most levels, half of those that span more than
two. -/
def forget (s : State f) : State f :=
  let candidates := (List.range s.facts.size).filter fun id =>
    2 < s.spans.getD id 0 && !(s.clauses.getD id #[]).isEmpty
  let sorted := candidates.mergeSort fun a b => s.spans.getD b 0 ≤ s.spans.getD a 0
  (sorted.take (sorted.length / 2)).foldl (fun s id =>
    { s with
      facts := s.facts.forget id
      clauses := s.clauses.setIfInBounds id #[] }) s

end State

/-- The sequence 1, 1, 2, 1, 1, 2, 4, …, counted from one: a power of two follows two copies of
what is before it. -/
def luby : (limit : Nat) → Nat → Nat
  | 0, _ => 1
  | limit + 1, n =>
    let k := Nat.log2 (n + 1)
    if n + 1 = 1 <<< k then 1 <<< (k - 1) else luby limit (n + 1 - (1 <<< k))

/-- When to start over. -/
structure Schedule where
  restarts : Nat
  /-- The number of conflicts at which to take back all decisions. -/
  restartAt : Nat
  /-- The number of facts at which to forget some. -/
  forgetAt : Nat

/-- Takes back all decisions if it is time to. -/
def Schedule.apply (p : Schedule) (s : State f) : Schedule × State f :=
  if s.conflicts < p.restartAt then (p, s)
  else
    let s := s.backtrack 0
    let restarts := p.restarts + 1
    let restartAt := s.conflicts + 64 * luby 64 restarts
    if s.facts.size < p.forgetAt then ({ p with restarts, restartAt }, s)
    else ({ restarts, restartAt, forgetAt := s.facts.size + 2000 + 50 * restarts }, s.forget)

/-- Searches until a model or the empty clause is found. -/
def searchFrom : (effort : Nat) → Schedule → State f → Outcome f
  | 0, _, _ => .open_
  | effort + 1, p, s =>
    match propagate (s.names.size + 1) s with
    | (0, s) =>
      let (p, s) := p.apply s
      match s.nextDecision (s.names.size + 1) with
      | none =>
        if h : f.holds s.assignment = true then .model s.assignment h else .open_
      | some (code, s) =>
        searchFrom effort p ({ s with marks := s.marks.push s.trail.size }.assign code 0)
    | (id + 1, s) =>
      let a := analyze id s
      if h : a.fact.clause = [] then .refuted a.fact h else searchFrom effort p (learn a)

/-- More than any search can spend. -/
def allEffort : Nat := 1 <<< 60

def search : Progress f → Outcome f
  | .error fact => if h : fact.clause = [] then .refuted fact h else .open_
  | .ok s => searchFrom allEffort ⟨0, 64, s.facts.size + 2000⟩ s

/-- Adds a clause to the formula. -/
def Progress.add (c : Clause) : Progress f → Progress (c :: f)
  | .error fact => .error (fact.weaken c)
  | .ok s => (s.weaken c).addClause (.ofMem c List.mem_cons_self)

end SoftError.Learning

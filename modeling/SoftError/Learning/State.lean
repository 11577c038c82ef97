import Std.Data.TreeMap
import SoftError.Formula.Resolution
import SoftError.Learning.Order

/-!
# The state of a clause-learning search

Variables are numbered, and a literal is handled by its code: twice the number, plus one if
it is negative. The trail lists the literals that hold, in the order in which they were
decided or propagated. Two literals of each clause are watched; as long as both can hold,
the clause needs no attention.

Every clause of the state is a consequence of the formula, by its type. What the search
does with the other fields only matters for its speed.
-/

namespace SoftError.Learning

/-- What is known of a literal. -/
inductive Status where
  | unset
  | holds
  | fails
deriving DecidableEq

def complement (code : Nat) : Nat := code ^^^ 1

structure State (f : Cnf) where
  numbers : Std.TreeMap Nat Nat
  /-- The positive literal of each variable. -/
  names : Array Lit
  facts : Consequences f
  /-- The codes of the literals of each fact. A fact without any is not used. -/
  clauses : Array (Array Nat)
  /-- The sum of the two codes that are watched in each clause. -/
  watched : Array Nat
  /-- For each code, the clauses in which it is watched, each followed by another code of
  the clause. -/
  watchers : Array (Array Nat)
  status : Array Status
  /-- For each variable, the number of decisions before its assignment. -/
  levels : Array Nat
  /-- For each variable, one more than the fact that forced it, `0` for a decision. -/
  reasons : Array Nat
  trail : Array Nat
  /-- The lengths of the trail before each decision. -/
  marks : Array Nat
  /-- How much of the trail has been propagated. -/
  done : Nat
  phases : Array Bool
  /-- For each variable, the last conflict it had a part in. -/
  stamps : Array Nat
  conflicts : Nat
  /-- For each fact, how many levels it spans if it was learned, and `0` otherwise. -/
  spans : Array Nat
  order : Order

namespace State

variable {f : Cnf}

/-- Nothing is known. -/
def empty : State f where
  numbers := ∅
  names := #[]
  facts := .empty
  clauses := #[]
  watched := #[]
  watchers := #[]
  status := #[]
  levels := #[]
  reasons := #[]
  trail := #[]
  marks := #[]
  done := 0
  phases := #[]
  stamps := #[]
  conflicts := 0
  spans := #[]
  order := .empty

/-- What is known of a formula is known of a longer one. -/
def weaken (c : Clause) (s : State f) : State (c :: f) :=
  { s with facts := s.facts.weaken c }

/-- Gives a number to the variable of a literal, unless it has one. -/
def enter (s : State f) (l : Lit) : State f :=
  if s.numbers.contains l.var then s
  else
    let n := s.names.size
    { s with
      numbers := s.numbers.insert l.var n
      names := s.names.push (l.withSign true)
      watchers := (s.watchers.push #[]).push #[]
      status := (s.status.push .unset).push .unset
      levels := s.levels.push 0
      reasons := s.reasons.push 0
      phases := s.phases.push false
      stamps := s.stamps.push 0
      order := s.order.add }

def statusOf (s : State f) (code : Nat) : Status := s.status.getD code .unset

def levelOf (s : State f) (code : Nat) : Nat := s.levels.getD (code / 2) 0

def reasonOf (s : State f) (code : Nat) : Nat := s.reasons.getD (code / 2) 0

def literal (s : State f) (code : Nat) : Lit :=
  let l := s.names.getD (code / 2) .bot
  if code % 2 = 0 then l else -l

def code (s : State f) (l : Lit) : Nat :=
  2 * s.numbers.getD l.var 0 + if l.positive then 0 else 1

/-- Number of decisions. -/
def level (s : State f) : Nat := s.marks.size

/-- Puts a literal on the trail. -/
def assign (s : State f) (code reason : Nat) : State f :=
  { s with
    status := (s.status.setIfInBounds code .holds).setIfInBounds (complement code) .fails
    levels := s.levels.setIfInBounds (code / 2) s.marks.size
    reasons := s.reasons.setIfInBounds (code / 2) reason
    trail := s.trail.push code }

/-- Takes the last literals off the trail, until `length` are left. -/
def unwind (length : Nat) : Nat → State f → State f
  | 0, s => s
  | n + 1, s =>
    if s.trail.size ≤ length then s
    else
      let code := s.trail.getD (s.trail.size - 1) 0
      unwind length n { s with
        status := (s.status.setIfInBounds code .unset).setIfInBounds (complement code) .unset
        phases := s.phases.setIfInBounds (code / 2) (code % 2 = 0)
        trail := s.trail.pop
        order := s.order.insert (code / 2) }

/-- Takes back the decisions from the given level on. -/
def backtrack (s : State f) (level : Nat) : State f :=
  if s.marks.size ≤ level then s
  else
    let length := s.marks.getD level 0
    let s := unwind length s.trail.size s
    { s with marks := s.marks.take level, done := length }

/-- Adds a fact, which is watched at its first two codes if it has so many. -/
def addFact (s : State f) (fact : Consequence f) (codes : Array Nat) (span : Nat) : State f :=
  let id := s.facts.size
  let a := codes.getD 0 0
  let b := codes.getD 1 0
  let s := { s with
    facts := s.facts.push fact
    clauses := s.clauses.push codes
    watched := s.watched.push (a + b)
    spans := s.spans.push span }
  if codes.size < 2 then s
  else { s with
    watchers := (s.watchers.modify a fun ws => (ws.push id).push b).modify b
      fun ws => (ws.push id).push a }

end State

end SoftError.Learning

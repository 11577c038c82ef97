import SoftError.Learning.State

/-!
# Learning from a conflict

A violated clause is resolved with the clauses that forced its literals, from the end of
the trail backwards, until one literal of the last decision level is left. A literal of an
earlier level is resolved away if that brings in no new ones.
-/

namespace SoftError.Learning

variable {f : Cnf}

/-- The work on a conflict. -/
structure Analysis (f : Cnf) where
  state : State f
  fact : Consequence f
  /-- Number of marked variables that are still ahead. -/
  ahead : Nat
  /-- How many of them are of the last level. -/
  recent : Nat
  /-- One more than the literal of the last level that is left, `0` if none is yet. -/
  pivot : Nat

namespace Analysis

/-- Marks the variables of a clause from position `i` on. -/
def markFrom (codes : Array Nat) : (limit : Nat) → (i : Nat) → Analysis f → Analysis f
  | 0, _, a => a
  | limit + 1, i, a =>
    if codes.size ≤ i then a
    else
      let v := codes.getD i 0 / 2
      if a.state.stamps.getD v 0 = a.state.conflicts then markFrom codes limit (i + 1) a
      else
        let isRecent := a.state.levels.getD v 0 = a.state.marks.size
        markFrom codes limit (i + 1) { a with
          state := { a.state with
            stamps := a.state.stamps.setIfInBounds v a.state.conflicts
            order := a.state.order.bump v }
          ahead := a.ahead + 1
          recent := if isRecent then a.recent + 1 else a.recent }

def mark (codes : Array Nat) (a : Analysis f) : Analysis f := markFrom codes codes.size 0 a

/-- Whether the other literals of a clause are marked or fixed before any decision. -/
def isRedundant (s : State f) (code : Nat) (codes : Array Nat) : Bool :=
  codes.all fun c =>
    c = code || s.stamps.getD (c / 2) 0 = s.conflicts || s.levels.getD (c / 2) 0 = 0

/-- Resolves with the clause that forced a literal. -/
def resolve (code id : Nat) (a : Analysis f) : Analysis f :=
  let p := a.state.literal (complement code)
  let codes := a.state.clauses.getD id #[]
  mark codes { a with fact := a.fact.resolve p (a.state.facts.get id) }

/-- Goes through the trail from position `i` backwards. -/
def walk : (i : Nat) → Analysis f → Analysis f
  | 0, a => a
  | i + 1, a =>
    if a.ahead = 0 then a
    else
      let code := a.state.trail.getD i 0
      if a.state.stamps.getD (code / 2) 0 ≠ a.state.conflicts then walk i a
      else
        let a := { a with ahead := a.ahead - 1 }
        let reason := a.state.reasonOf code
        if 0 < a.state.marks.size && a.state.levelOf code = a.state.marks.size then
          if a.recent = 1 then walk i { a with recent := 0, pivot := code + 1 }
          else walk i (resolve code (reason - 1) { a with recent := a.recent - 1 })
        else if 0 < reason && isRedundant a.state code (a.state.clauses.getD (reason - 1) #[]) then
          walk i (resolve code (reason - 1) a)
        else walk i a

end Analysis

/-- Analyses the violation of a fact. -/
def analyze (id : Nat) (s : State f) : Analysis f :=
  let s := { s with conflicts := s.conflicts + 1 }
  let fact := s.facts.get id
  let codes := s.clauses.getD id #[]
  let length := s.trail.size
  Analysis.walk length (Analysis.mark codes ⟨s, fact, 0, 0, 0⟩)

/-- The number of different levels, given in ascending order. -/
def distinct : List Nat → Nat
  | [] => 0
  | [_] => 1
  | a :: b :: rest => (if a = b then 0 else 1) + distinct (b :: rest)

/-- The position, from `i` on, of the literal with the latest level. -/
def latest (levels : Array Nat) (codes : Array Nat) : (limit : Nat) → (i best : Nat) → Nat
  | 0, _, best => best
  | limit + 1, i, best =>
    if codes.size ≤ i then best
    else
      let better := levels.getD (codes.getD best 0 / 2) 0 < levels.getD (codes.getD i 0 / 2) 0
      latest levels codes limit (i + 1) (if better then i else best)

/-- Adds what was learned, takes back the decisions it does not depend on, and assigns the
literal that it forces then. -/
def learn (a : Analysis f) : State f :=
  let s := a.state
  let asserted := complement (a.pivot - 1)
  let codes := (a.fact.clause.map s.code).toArray
  let codes := codes.swapIfInBounds 0 (codes.findIdx (· = asserted))
  let second := latest s.levels codes codes.size 1 1
  let level := if codes.size < 2 then 0 else s.levelOf (codes.getD second 0)
  let codes := codes.swapIfInBounds 1 second
  let span := distinct ((codes.toList.map s.levelOf).mergeSort (· ≤ ·))
  let id := s.facts.size
  let s := ((s.backtrack level).addFact a.fact codes span).assign asserted (id + 1)
  { s with order := s.order.decay }

end SoftError.Learning

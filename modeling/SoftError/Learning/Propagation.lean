import SoftError.Learning.State

/-!
# Propagation

When a literal fails, each clause that watches it looks for another literal to watch. A
clause without one forces the other literal that it watches, or is violated if that one
fails as well.
-/

namespace SoftError.Learning

namespace State

variable {f : Cnf}

/-- Resolves the other literals of a clause away, which all fail before any decision. -/
def isolate (s : State f) (code : Nat) (codes : Array Nat) (fact : Consequence f) :
    Consequence f :=
  codes.foldl (fun fact c =>
    if c = code then fact
    else fact.resolve (s.literal c) (s.facts.get (s.reasonOf c - 1))) fact

/-- Assigns a literal that a clause forces. Before any decision the literal is a fact of its
own. -/
def force (s : State f) (code id : Nat) : State f :=
  if 0 < s.marks.size then s.assign code (id + 1)
  else
    let fact := s.isolate code (s.clauses.getD id #[]) (s.facts.get id)
    let unit := s.facts.size
    (s.addFact fact #[code] 0).assign code (unit + 1)

end State

/-- The position of the next literal of a clause that does not fail, apart from `other`; the
length of the clause if there is none. -/
def nextWatch (status : Array Status) (codes : Array Nat) (other : Nat) : (limit : Nat) → Nat → Nat
  | 0, _ => codes.size
  | limit + 1, i =>
    if codes.size ≤ i then codes.size
    else
      let c := codes.getD i 0
      if c = other then nextWatch status codes other limit (i + 1)
      else match status.getD c .unset with
        | .fails => nextWatch status codes other limit (i + 1)
        | _ => i

/-- Moves the entries from `i` on to `j`. -/
def shiftDown : (limit : Nat) → (i j : Nat) → Array Nat → Array Nat
  | 0, _, j, ws => ws.take j
  | limit + 1, i, j, ws =>
    if ws.size ≤ i then ws.take j
    else shiftDown limit (i + 1) (j + 1) (ws.setIfInBounds j (ws.getD i 0))

variable {f : Cnf}

/-- Visits the clauses that watch `code`, which fails. The entries before `j` stay, and those
from `i` on are still to be visited. Returns one more than a violated fact, or `0`. -/
def visit (code : Nat) : (limit : Nat) → (i j : Nat) → Array Nat → State f → Nat × State f
  | 0, _, _, ws, s => (0, { s with watchers := s.watchers.setIfInBounds code ws })
  | limit + 1, i, j, ws, s =>
    if ws.size ≤ i then (0, { s with watchers := s.watchers.setIfInBounds code (ws.take j) })
    else
      let id := ws.getD i 0
      let blocker := ws.getD (i + 1) 0
      match s.statusOf blocker with
      | .holds =>
        visit code limit (i + 2) (j + 2)
          ((ws.setIfInBounds j id).setIfInBounds (j + 1) blocker) s
      | _ =>
        let codes := s.clauses.getD id #[]
        if codes.isEmpty then visit code limit (i + 2) j ws s
        else
          let other := s.watched.getD id 0 - code
          match s.statusOf other with
          | .holds =>
            visit code limit (i + 2) (j + 2)
              ((ws.setIfInBounds j id).setIfInBounds (j + 1) other) s
          | standing =>
            let k := nextWatch s.status codes other codes.size 0
            if k < codes.size then
              let c := codes.getD k 0
              visit code limit (i + 2) j ws { s with
                watched := s.watched.setIfInBounds id (other + c)
                watchers := s.watchers.modify c fun ws => (ws.push id).push other }
            else
              let ws := (ws.setIfInBounds j id).setIfInBounds (j + 1) other
              if standing = .fails then
                let ws := shiftDown ws.size (i + 2) (j + 2) ws
                (id + 1, { s with watchers := s.watchers.setIfInBounds code ws })
              else visit code limit (i + 2) (j + 2) ws (s.force other id)

/-- Propagates what is new on the trail. Returns one more than a violated fact, or `0`. -/
def propagate : (limit : Nat) → State f → Nat × State f
  | 0, s => (0, s)
  | limit + 1, s =>
    if s.trail.size ≤ s.done then (0, s)
    else
      let code := complement (s.trail.getD s.done 0)
      let ws := s.watchers.getD code #[]
      let s := { s with done := s.done + 1, watchers := s.watchers.setIfInBounds code #[] }
      match visit code (ws.size / 2 + 1) 0 0 ws s with
      | (0, s) => propagate limit s
      | result => result

end SoftError.Learning

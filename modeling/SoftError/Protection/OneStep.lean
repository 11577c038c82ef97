import SoftError.Decision.Procedure
import SoftError.Fault.Component
import SoftError.Unrolling.Basic

/-!
# Protection within one step

The golden run starts in an arbitrary state with arbitrary inputs and raises no alarm. All
latches are considered at once, each under a selector: a latch is not protected if its
flip changes an output or the next state without an alarm.
-/

namespace SoftError.Protection.OneStep

variable (c : Circuit)

/-- A latch with its selector. -/
abbrev Candidate := Component × Lit

/-- Inverts the latches under their selectors. -/
def inject : List Candidate → Unrolling → Encoder → Unrolling × Encoder
  | [], u, e => (u, e)
  | (k, selector) :: rest, u, e =>
    let (l, e) := e.xor (u.read k.signal) selector
    inject rest (u.setLatch c k.index l) e

/-- Encodes both runs, with the clause that some output or compared latch differs. -/
def runs (all : List Candidate) (compared : Nat) (e : Encoder) : Clause × Encoder :=
  let (golden, e) := (Unrolling.initial c).openState c e
  let (golden, e) := golden.openInputs c e
  let (golden, e) := golden.step c e
  let e := e.add [[-golden.alarm c]]
  let (faulty, e) := inject c all golden e
  let (faulty, e) := faulty.step c e
  let e := e.add [[-faulty.alarm c]]
  let (outputs, e) := e.differs (golden.observed c) (faulty.observed c)
  let (states, e) := e.differs ((golden.nextState c).take compared)
    ((faulty.nextState c).take compared)
  (outputs ++ states, e)

/-- The clauses of both runs, and the clause that some output or compared latch differs. -/
def encode (all : List Candidate) (compared : Nat) (e : Encoder) : Cnf × Clause :=
  let (problem, e) := runs c all compared e
  (e.take.1, problem)

/-- The latch that a model selects, excluded from then on. -/
def read (all : List Candidate) (m : Model) : Option (Clause × Component) :=
  (all.find? fun k => m.isTrue k.2).map fun (k, selector) => ([-selector], k)

variable {σ : Type} [DecisionProcedure σ]

/-- The protected ones of the latches. -/
def search (checked : List Component) (compared : Nat) :
    Deciding σ SolverError (List Component) := do
  let (selectors, e) := Encoder.caching.freshList checked.length
  let all := checked.zip selectors
  Deciding.start selectors false
  Deciding.addUnit .top
  let (clauses, problem) := encode c all compared (e.atMostOne selectors)
  Deciding.addCnf clauses
  Deciding.addFolded problem
  let exposed ← Deciding.enumerate [] selectors (read all) all.length
  Deciding.finish
  return checked.filter (· ∉ exposed)

end SoftError.Protection.OneStep

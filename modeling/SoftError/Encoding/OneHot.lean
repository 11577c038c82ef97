import SoftError.Encoding.Pool
import SoftError.Formula.Basic

/-!
# At most one literal of a list

The pairwise encoding excludes every pair of positions. The sequential counter uses one
fresh variable for each position but the last, which holds if a literal up to there does.
-/

namespace SoftError.OneHot

/-- `new` excludes every literal of `previous`. -/
def exclude (new : Lit) (previous : List Lit) : Cnf := previous.map fun p => [-new, -p]

def pairwise : List Lit → Cnf
  | [] => []
  | l :: ls => exclude l ls ++ pairwise ls

/-- The counter clauses from the second literal on, given the counter of the one before. -/
def chain (counter : Lit) : List Lit → List Lit → Cnf
  | l :: ls, s :: ss => [[-l, s], [-counter, s], [-l, -counter]] ++ chain s ls ss
  | [l], [] => [[-l, -counter]]
  | _, _ => []

def sequential (p : VarPool) : List Lit → Cnf × VarPool
  | l :: ls =>
    let (counters, p) := p.freshList ls.length
    match counters with
    | s :: ss => ([-l, s] :: chain s ls ss, p)
    | [] => ([], p)
  | [] => ([], p)

def atLeastOne (ls : List Lit) : Cnf := [ls]

def exactlyOne (ls : List Lit) : Cnf := atLeastOne ls ++ pairwise ls

/-- The longest list that is encoded pairwise. -/
def pairwiseLimit : Nat := 6

/-- Pairwise for short lists, a counter for longer ones. -/
def atMostOne (p : VarPool) (ls : List Lit) : Cnf × VarPool :=
  if ls.length ≤ pairwiseLimit then (pairwise ls, p) else sequential p ls

end SoftError.OneHot

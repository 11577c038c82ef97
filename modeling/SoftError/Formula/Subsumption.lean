import SoftError.Formula.Basic

/-!
# Subsumption

A clause subsumes every clause that has all its literals. Subsumed clauses can be dropped
without changing the models of a formula.
-/

namespace SoftError.Cnf

/-- Adds a clause in place of those it subsumes. -/
def subsume (f : Cnf) (c : Clause) : Cnf := f.filter (fun d => !c.subset d) ++ [c]

/-- Whether adding `c` makes another clause superfluous. -/
def subsumes (f : Cnf) (c : Clause) : Bool := f.any c.subset

def simplifyStep (kept : Cnf) (c : Clause) : Cnf :=
  if kept.any fun k => k.subset c then kept else subsume kept c

/-- Keeps the first clause of each literal set that is minimal under inclusion. -/
def simplify (f : Cnf) : Cnf := f.foldl simplifyStep []

/-- The clauses as sets of literals, in ascending order and without repetition. -/
def canonical (f : Cnf) : Cnf := Ascending.ofList Clause.lt (f.map Clause.canonical)

end SoftError.Cnf

import SoftError.Formula.Literal

/-!
# Models

A model gives values to some of the variables. It is a list of literals taken as true, of
which the last one of a variable counts. Constants have their value in every model.
-/

namespace SoftError

structure Model where
  lits : List Lit
deriving DecidableEq

namespace Model

/-- The value of a literal, if its variable has one. -/
def value (m : Model) (l : Lit) : Option Bool :=
  if l.isConstant then some (l = .top)
  else (m.lits.reverse.find? fun k => k.var = l.var).map fun k => l.eval k.positive

/-- Whether a literal is known to be true. -/
def isTrue (m : Model) (l : Lit) : Bool := m.value l = some true

end Model

end SoftError

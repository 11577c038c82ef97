import SoftError.Decision.Procedure

/-!
# What an answer shows of its formula

A procedure is free to choose its models and cores. What does not depend on the choice is
which literals a model is forced to have and which assumptions no core can do without.
Here `sat` tells whether the formula is satisfiable together with a list of literals.
-/

namespace SoftError.Certificate

variable (sat : List Lit → Bool) (assumptions : List Lit)

/-- The model has a literal on each variable of interest, in order, and extends to a model
of the formula. -/
def validModel (interest model : List Lit) : Bool :=
  model.map Lit.var = interest.map Lit.var && sat (assumptions ++ model)

/-- The literals of the model that every other model shares, and `none` for the others. -/
def forced (model : List Lit) : List (Option Lit) :=
  model.map fun l => if sat (assumptions ++ [-l]) then none else some l

/-- The core consists of assumptions and contradicts the formula. -/
def validCore (core : List Lit) : Bool :=
  core.all (fun l => l ∈ assumptions) && !sat core

/-- The assumptions without which the formula is satisfiable. -/
def critical : List Lit :=
  assumptions.eraseDups.filter fun l => sat (assumptions.filter (· ≠ l))

/-- The minimal core, if it is the only one: the critical assumptions already contradict the
formula, and no assumption is repeated. -/
def onlyCore (core : List Lit) : Option (List Lit) :=
  if assumptions.Nodup ∧ !sat (critical sat assumptions) then some core else none

end SoftError.Certificate

import SoftError.Formula.Basic
import SoftError.Stimulus.Random

/-!
# Refining models and cores

A model can be varied at random as long as it stays a model, and a core can be cut down
until no single literal is dispensable. Any source of coin tosses will do, and so will any
account of the assumptions that a refutation has used.
-/

namespace SoftError

/-- A source of coin tosses: its state, and the toss that comes next with the state after it. -/
structure Coins where
  state : Nat
  next : Nat → Bool × Nat

namespace Coins

def toss (k : Coins) : Bool × Coins :=
  let (heads, state) := k.next k.state
  (heads, { k with state })

/-- The tosses of a generator. -/
def ofGenerator (g : Generator) : Coins where
  state := g.state.toNat
  next n :=
    let (heads, g) := (⟨UInt64.ofNat n⟩ : Generator).coin
    (heads, g.state.toNat)

end Coins

/-- The literals cannot all hold in a model of the formula. -/
def Cnf.Refutes (f : Cnf) (ls : List Lit) : Prop :=
  ∀ ρ, f.holds ρ = true → ls.all (Lit.holds ρ) = false

/-- The assumptions that a refutation has used. With the further ones they are refuted already. -/
structure Blame where
  uses (f : Cnf) (core more : List Lit) : Lit → Bool
  refutes : ∀ {f : Cnf} {core more : List Lit}, f.Refutes (core ++ more) →
    f.Refutes (core.filter (uses f core more) ++ more)

/-- Every assumption may have been used. -/
def Blame.all : Blame where
  uses _ _ _ _ := true
  refutes h := by rwa [List.filter_eq_self.2 fun _ _ => rfl]

/-- Drops each literal in turn, unless the rest is no longer contradictory. -/
def minimizeFrom (contradictory : List Lit → Bool) : (kept rest : List Lit) → List Lit
  | kept, [] => kept
  | kept, l :: rest =>
    if contradictory (kept ++ rest) then minimizeFrom contradictory kept rest
    else minimizeFrom contradictory (kept ++ [l]) rest

def minimizeCore (contradictory : List Lit → Bool) (core : List Lit) : List Lit :=
  minimizeFrom contradictory [] core

/-- Tosses a coin for each literal that is not constant, and flips it if the result is
still a model. -/
def randomizeFrom (isModel : List Lit → Bool) :
    (done rest : List Lit) → Coins → List Lit × Coins
  | done, [], k => (done, k)
  | done, l :: rest, k =>
    if l.isConstant then randomizeFrom isModel (done ++ [l]) rest k
    else
      let (heads, k) := k.toss
      if heads && isModel (done ++ -l :: rest) then randomizeFrom isModel (done ++ [-l]) rest k
      else randomizeFrom isModel (done ++ [l]) rest k

def randomizeModel (isModel : List Lit → Bool) (model : List Lit) (k : Coins) :
    List Lit × Coins :=
  randomizeFrom isModel [] model k

/-- The literals of the variables of interest under an assignment. -/
def modelLits (ρ : Assignment) (interest : List Lit) : List Lit :=
  interest.map fun l => l.withSign (ρ l.var)

end SoftError

import SoftError.Formula.Literal

/-!
# Fresh variables

A pool hands out variables in ascending order. Variable `1` is the constant, so a pool
never starts below `2`. It has run out when the next variable has no literals in words any more.
-/

namespace SoftError

structure VarPool where
  next : Nat
  two_le : 2 ≤ next
deriving DecidableEq

namespace VarPool

def initial : VarPool := ⟨2, Nat.le_refl 2⟩

def startingAt? (v : Nat) : Option VarPool := if h : 2 ≤ v then some ⟨v, h⟩ else none

/-- The next variable, and the pool without it. -/
def fresh (p : VarPool) : Lit × VarPool :=
  (Lit.ofVar p.next (by have := p.two_le; omega), ⟨p.next + 1, by have := p.two_le; omega⟩)

/-- The next `n` variables. -/
def freshList (p : VarPool) : Nat → List Lit × VarPool
  | 0 => ([], p)
  | n + 1 =>
    let (l, p) := p.fresh
    let (ls, p) := p.freshList n
    (l :: ls, p)

/-- The variables handed out so far have literals in words. -/
def InRange (p : VarPool) : Prop := p.next ≤ Lit.maxVar + 1

instance (p : VarPool) : Decidable p.InRange := inferInstanceAs (Decidable (_ ≤ _))

/-- Whether a variable without literals in words was handed out between two pools. -/
def ranOut (before after : VarPool) : Bool := before.next < after.next ∧ ¬ after.InRange

end VarPool

end SoftError

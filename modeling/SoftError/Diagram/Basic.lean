import SoftError.Formula.Literal

/-!
# Decision diagrams

A decision diagram branches on variables in ascending order and ends in a truth value. A
node with equal branches is never built, so a diagram that is constant is a leaf.
-/

namespace SoftError

inductive Diagram where
  | leaf (value : Bool)
  | node (var : Nat) (low high : Diagram)
with
  /-- A number by which different diagrams mostly differ. -/
  @[computed_field] digest : Diagram → Nat
    | .leaf value => value.toNat
    | .node var low high =>
      (low.digest * 1597334677 + high.digest * 747796405 + var * 277803737 + 1) % 2147483647

namespace Diagram

/-- Equality. Branches that are one object in memory and branches with different digests are
not searched. -/
protected def decEq (f g : Diagram) : Decidable (f = g) :=
  withPtrEqDecEq f g fun _ =>
    if hDigest : f.digest = g.digest then
      match f, g with
      | leaf a, leaf b => decidable_of_iff (a = b) (by simp)
      | leaf _, node _ _ _ => isFalse (by simp)
      | node _ _ _, leaf _ => isFalse (by simp)
      | node v low high, node w low' high' =>
        if hVar : v = w then
          match low.decEq low' with
          | isFalse hLow => isFalse (by simp [hLow])
          | isTrue hLow =>
            match high.decEq high' with
            | isFalse hHigh => isFalse (by simp [hHigh])
            | isTrue hHigh => isTrue (by rw [hVar, hLow, hHigh])
        else isFalse (by simp [hVar])
    else isFalse fun h => hDigest (congrArg digest h)

instance : DecidableEq Diagram := Diagram.decEq

def eval (ρ : Assignment) : Diagram → Bool
  | leaf b => b
  | node v low high => if ρ v then high.eval ρ else low.eval ρ

/-- A node, unless its branches are equal. -/
def branch (v : Nat) (low high : Diagram) : Diagram :=
  if low = high then low else node v low high

@[simp]
theorem eval_branch (ρ : Assignment) (v : Nat) (low high : Diagram) :
    (branch v low high).eval ρ = if ρ v then high.eval ρ else low.eval ρ := by
  rw [branch]
  split
  · rename_i h
    simp [h]
  · rfl

def ofVar (v : Nat) : Diagram := node v (leaf false) (leaf true)

def ofLit (l : Lit) : Diagram := node l.var (leaf !l.positive) (leaf l.positive)

@[simp]
theorem eval_ofVar (ρ : Assignment) (v : Nat) : (ofVar v).eval ρ = ρ v := by
  simp [ofVar, eval]

@[simp]
theorem eval_ofLit (ρ : Assignment) (l : Lit) : (ofLit l).eval ρ = l.holds ρ := by
  cases h : ρ l.var <;> simp [ofLit, eval, h, Lit.holds, Lit.eval]

/-- Exchanges the truth values at the leaves. -/
def complement : Diagram → Diagram
  | leaf b => leaf !b
  | node v low high => node v low.complement high.complement

@[simp]
theorem eval_complement (ρ : Assignment) (f : Diagram) : f.complement.eval ρ = !f.eval ρ := by
  induction f with
  | leaf b => rfl
  | node v low high ihLow ihHigh =>
    simp only [complement, eval, ihLow, ihHigh]
    split <;> rfl

/-- Applies a function to the truth values at the leaves. -/
def relabel (p : Bool → Bool) (f : Diagram) : Diagram :=
  match p false, p true with
  | false, true => f
  | true, false => f.complement
  | b, _ => leaf b

@[simp]
theorem eval_relabel (ρ : Assignment) (p : Bool → Bool) (f : Diagram) :
    (f.relabel p).eval ρ = p (f.eval ρ) := by
  rw [relabel]
  cases hFalse : p false <;> cases hTrue : p true <;> cases hEval : f.eval ρ <;>
    simp [eval, hFalse, hTrue, hEval]

/-- The diagram of a connective of two diagrams. -/
def combine (op : Bool → Bool → Bool) : Diagram → Diagram → Diagram
  | leaf a, g => g.relabel (op a)
  | node v low high, leaf b => (node v low high).relabel (op · b)
  | node v low high, node w low' high' =>
    if v < w then
      branch v (combine op low (node w low' high')) (combine op high (node w low' high'))
    else if w < v then
      branch w (combine op (node v low high) low') (combine op (node v low high) high')
    else branch v (combine op low low') (combine op high high')
termination_by f g => sizeOf f + sizeOf g

@[simp]
theorem eval_combine (ρ : Assignment) (op : Bool → Bool → Bool) (f g : Diagram) :
    (combine op f g).eval ρ = op (f.eval ρ) (g.eval ρ) := by
  fun_induction combine op f g with
  | case1 a g => simp [eval]
  | case2 v low high b => simp [eval]
  | case3 v low high w low' high' h ihLow ihHigh =>
    rw [eval_branch, ihLow, ihHigh, eval.eq_2 ρ v]
    split <;> rfl
  | case4 v low high w low' high' h h' ihLow ihHigh =>
    rw [eval_branch, ihLow, ihHigh, eval.eq_2 ρ w]
    split <;> rfl
  | case5 v low high w low' high' h h' ihLow ihHigh =>
    obtain rfl : v = w := by omega
    rw [eval_branch, ihLow, ihHigh, eval, eval]
    split <;> rfl

/-- Variables are numbered by 16-bit words. -/
def variableBound : Nat := (1 <<< 16) - 1

/-- The number of variables that diagrams can have. Two of the words are not numbers of
variables. -/
def maxVariables : Nat := variableBound - 2

/-- Whether no assignment satisfies the diagram. -/
def isFalse (f : Diagram) : Bool := f = leaf false

/-- The variables set in some satisfying assignment, which leaves all others clear. -/
def witness? : Diagram → Option (List Nat)
  | leaf b => if b then some [] else none
  | node v low high =>
    match low.witness? with
    | some vs => some vs
    | none => high.witness?.map (v :: ·)

/-- The values at all assignments of the variables below `n`, where variable `i` is bit `i`
of the position. -/
def table (n : Nat) (f : Diagram) : List Bool :=
  (List.range (1 <<< n)).map fun b => f.eval fun i => b.testBit i

end Diagram

end SoftError

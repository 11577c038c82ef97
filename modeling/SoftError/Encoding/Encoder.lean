import SoftError.Encoding.Conjunctions
import SoftError.Encoding.OneHot

/-!
# Encoding signals as clauses

An encoder hands out fresh variables and collects the clauses that define them. The value
of a gate is a literal: constants are folded away, and an encoder with a cache returns the
same literal for the same pair of fanins.
-/

namespace SoftError

structure Encoder where
  pool : VarPool := .initial
  /-- Clauses that have not been taken yet. -/
  pending : Array Clause := #[]
  /-- The conjunctions encoded so far, if they are remembered. -/
  cache : Option Conjunctions := none

namespace Encoder

def plain : Encoder := {}

def caching : Encoder := { cache := some {} }

def nextVar (e : Encoder) : Nat := e.pool.next

/-- The variables handed out so far have literals in words. -/
def InRange (e : Encoder) : Prop := e.pool.InRange

instance (e : Encoder) : Decidable e.InRange := inferInstanceAs (Decidable e.pool.InRange)

def fresh (e : Encoder) : Lit × Encoder :=
  let (l, pool) := e.pool.fresh
  (l, { e with pool })

def freshList (e : Encoder) (n : Nat) : List Lit × Encoder :=
  let (ls, pool) := e.pool.freshList n
  (ls, { e with pool })

def add (e : Encoder) (clauses : Cnf) : Encoder :=
  { e with pending := e.pending ++ clauses }

/-- The pending clauses, and the encoder without them. -/
def take (e : Encoder) : Cnf × Encoder := (e.pending.toList, { e with pending := #[] })

def clearCache (e : Encoder) : Encoder := { e with cache := e.cache.map fun _ => {} }

/-- Forgets the cache and the pending clauses, and continues with another pool. -/
def restart (e : Encoder) (pool : VarPool) : Encoder :=
  { pool, cache := e.cache.map fun _ => {} }

def and (e : Encoder) (a b : Lit) : Lit × Encoder :=
  if a = .bot ∨ b = .bot then (.bot, e)
  else if a = .top then (b, e)
  else if b = .top ∨ a = b then (a, e)
  else if a = -b then (.bot, e)
  else match e.cache.bind fun cache => cache.find? a b with
    | some l => (l, e)
    | none =>
      let (l, e) := e.fresh
      let e := e.add [[a, -l], [b, -l], [-a, -b, l]]
      (l, { e with cache := e.cache.map fun cache => cache.insert a b l })

def or (e : Encoder) (a b : Lit) : Lit × Encoder :=
  let (l, e) := e.and (-a) (-b)
  (-l, e)

/-- The clauses of `z = a ⊕ b`. -/
def xorClauses (a b z : Lit) : Cnf := [[a, b, -z], [a, -b, z], [-a, b, z], [-a, -b, -z]]

def xor (e : Encoder) (a b : Lit) : Lit × Encoder :=
  if a = .bot then (b, e)
  else if b = .bot then (a, e)
  else if a = .top then (-b, e)
  else if b = .top then (-a, e)
  else if a = b then (.bot, e)
  else if a = -b then (.top, e)
  else
    let (z, e) := e.fresh
    (z, e.add (xorClauses a b z))

/-- The value of a latch that is inverted if `f` holds: `old ⊕ f`. -/
def flip (e : Encoder) (old f : Lit) : Lit × Encoder :=
  if old = .top then (-f, e)
  else if old = .bot then (f, e)
  else
    let (new, e) := e.fresh
    (new, e.add [[f, old, -new], [f, -old, new], [-f, old, new], [-f, -old, -new]])

/-- The value of a latch that is inverted if both `c` and `f` hold: `old ⊕ (c ∧ f)`. -/
def flipIf (e : Encoder) (old c f : Lit) : Lit × Encoder :=
  if old = .bot then e.and c f
  else if old = .top then
    let (l, e) := e.and c f
    (-l, e)
  else
    let (new, e) := e.fresh
    (new, e.add [[old, c, -new], [old, f, -new], [-old, -c, -f, -new],
      [-old, c, new], [-old, f, new], [old, -c, -f, new]])

/-- The clauses of `d = x ⊕ y`. -/
def differenceClauses (x y d : Lit) : Cnf := [[-d, x, y], [-d, -x, -y], [d, -x, y], [d, x, -y]]

/-- The literals of a clause that holds if and only if the vectors differ, in addition to
those collected so far. A pair of complementary literals settles the matter. -/
def differsFrom (collected : List Lit) (e : Encoder) : List Lit → List Lit → List Lit × Encoder
  | x :: xs, y :: ys =>
    if x = y then differsFrom collected e xs ys
    else if x = -y then ([.top], e)
    else if x = .top then differsFrom (collected ++ [-y]) e xs ys
    else if x = .bot then differsFrom (collected ++ [y]) e xs ys
    else if y = .top then differsFrom (collected ++ [-x]) e xs ys
    else if y = .bot then differsFrom (collected ++ [x]) e xs ys
    else
      let (d, e) := e.fresh
      differsFrom (collected ++ [d]) (e.add (differenceClauses x y d)) xs ys
  | _, _ => (collected, e)

def differs (e : Encoder) (xs ys : List Lit) : List Lit × Encoder := differsFrom [] e xs ys

/-- The clauses of `a = b`. -/
def equalClauses (a b : Lit) : Cnf :=
  if a = b then []
  else if a.isConstant then [[if a = .top then b else -b]]
  else if b.isConstant then [[if b = .top then a else -a]]
  else [[-a, b], [a, -b]]

/-- Forces `a = b`. -/
def equal (e : Encoder) (a b : Lit) : Encoder := e.add (equalClauses a b)

/-- Forces `a = b` unless the guard holds. -/
def equalUnless (e : Encoder) (guard a b : Lit) : Encoder :=
  e.add [[guard, -a, b], [guard, a, -b]]

def atMostOne (e : Encoder) (ls : List Lit) : Encoder :=
  let (clauses, pool) := OneHot.atMostOne e.pool ls
  { e with pool }.add clauses

end Encoder

end SoftError

import SoftError.Ascending
import SoftError.Formula.Literal

/-!
# Clauses and formulas

A clause is a list of literals, read as their disjunction, and a formula in conjunctive
normal form is a list of clauses. Both keep their order and their repetitions.
-/

namespace SoftError

abbrev Clause := List Lit

abbrev Cnf := List Clause

namespace Clause

def holds (ρ : Assignment) (c : Clause) : Bool := c.any (Lit.holds ρ)

def subset (c d : Clause) : Bool := c.all fun l => l ∈ d

/-- Lexicographic order. -/
def lt : Clause → Clause → Bool
  | [], [] => false
  | [], _ :: _ => true
  | _ :: _, [] => false
  | a :: c, b :: d => a.lt b || (a = b && lt c d)

/-- Removes the constants; `none` if one of them satisfies the clause. -/
def fold (c : Clause) : Option Clause :=
  if Lit.top ∈ c then none else some (c.filter (· ≠ Lit.bot))

def negate (ls : List Lit) : Clause := ls.map (- ·)

def canonical (c : Clause) : Clause := Ascending.ofList Lit.lt c

theorem holds_iff {ρ : Assignment} {c : Clause} :
    c.holds ρ = true ↔ ∃ l ∈ c, l.holds ρ = true := by
  simp [holds]

end Clause

namespace Cnf

def holds (ρ : Assignment) (f : Cnf) : Bool := f.all (Clause.holds ρ)

/-- The formula without models. -/
def unsat : Cnf := [[]]

/-- One unit clause for each literal. -/
def units (ls : List Lit) : Cnf := ls.map fun l => [l]

/-- Number of literal occurrences. -/
def size (f : Cnf) : Nat := f.foldr (fun c n => c.length + n) 0

def vars (f : Cnf) : List Nat :=
  Ascending.ofList (fun v w => decide (v < w)) (f.flatten.map Lit.var)

/-- The largest variable, `0` if there is none. -/
def maxVar (f : Cnf) : Nat := (f.flatten.map Lit.var).foldl max 0

def mentions (f : Cnf) (v : Nat) : Bool := f.any fun c => c.any fun l => l.var = v

/-- Every clause has a literal of the cube. -/
def satisfiedBy (f : Cnf) (cube : List Lit) : Bool := f.all fun c => c.any fun l => l ∈ cube

/-- The first clause of least length, and the formula without it. -/
def popShortest? (f : Cnf) : Option (Clause × Cnf) :=
  match (f.map List.length).min? with
  | none => none
  | some n => (f.find? fun c => c.length = n).map fun c => (c, f.eraseP fun c => c.length = n)

/-- The last clause, and the formula without it. -/
def popLast? (f : Cnf) : Option (Clause × Cnf) := f.getLast?.map fun c => (c, f.dropLast)

/-- All literals and their complements are words. -/
def InRange (f : Cnf) : Prop := ∀ c ∈ f, ∀ l ∈ c, l.InRange

/-- The formula in words; `none` if a literal has become too large for one. -/
def words? (f : Cnf) : Option Cnf := if f.all fun c => c.all Lit.isWord then some f else none

theorem InRange.words?_eq {f : Cnf} (h : f.InRange) : f.words? = some f := by
  refine if_pos ?_
  simp only [List.all_eq_true]
  exact fun c hc l hl => (Lit.inRange_iff.mp (h c hc l hl)).1

theorem holds_iff {ρ : Assignment} {f : Cnf} :
    f.holds ρ = true ↔ ∀ c ∈ f, c.holds ρ = true := by
  simp [holds]

theorem holds_append (ρ : Assignment) (f g : Cnf) :
    holds ρ (f ++ g) = (f.holds ρ && g.holds ρ) := by
  simp [holds]

theorem holds_units (ρ : Assignment) (ls : List Lit) :
    (units ls).holds ρ = ls.all (Lit.holds ρ) := by
  induction ls with
  | nil => rfl
  | cons l ls ih => simpa [units, holds, Clause.holds] using congrArg (l.holds ρ && ·) ih

theorem holds_congr {ρ ρ' : Assignment} {f : Cnf}
    (h : ∀ c ∈ f, ∀ l ∈ c, ρ l.var = ρ' l.var) : f.holds ρ = f.holds ρ' := by
  rw [Bool.eq_iff_iff, holds_iff, holds_iff]
  refine forall_congr' fun c => forall_congr' fun hc => ?_
  rw [Clause.holds_iff, Clause.holds_iff]
  refine exists_congr fun l => and_congr_right fun hl => ?_
  rw [Lit.holds_congr (h c hc l hl)]

@[simp]
theorem size_cons (c : Clause) (f : Cnf) : size (c :: f) = c.length + size f := rfl

theorem maxVar_le_iff {f : Cnf} {n : Nat} :
    f.maxVar ≤ n ↔ ∀ c ∈ f, ∀ l ∈ c, l.var ≤ n := by
  have hFold : ∀ (vs : List Nat) (m : Nat),
      vs.foldl max m ≤ n ↔ m ≤ n ∧ ∀ v ∈ vs, v ≤ n := by
    intro vs
    induction vs with
    | nil => simp
    | cons v vs ih =>
      intro m
      rw [List.foldl_cons, ih, Nat.max_le, List.forall_mem_cons, and_assoc]
  rw [maxVar, hFold]
  simp only [Nat.zero_le, true_and, List.forall_mem_map, List.mem_flatten]
  exact ⟨fun h c hc l hl => h l ⟨c, hc, hl⟩, fun h l ⟨c, hc, hl⟩ => h c hc l hl⟩

end Cnf

end SoftError

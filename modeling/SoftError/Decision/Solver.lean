import SoftError.Decision.Problem
import SoftError.Decision.Refinement

/-!
# Solvers

A solver finds a model of a problem under assumptions, or there is none. Any solver will do. It
may leave values open, and it has never heard of variables that no clause and no assumption has.
-/

namespace SoftError

/-- The values that a solver has once it has found a model. -/
structure Valuation where
  /-- The greatest variable that the solver has heard of. -/
  maxVar : Nat
  value? : Nat → Option Bool

namespace Valuation

/-- The value of a variable. Variables unknown to the solver are false. -/
def value (m : Valuation) : Assignment := fun v =>
  if m.maxVar < v then false else m.value? v == some true

/-- The assignment has the values that are known. -/
def Agrees (m : Valuation) (ρ : Assignment) : Prop :=
  ∀ v b, v ≤ m.maxVar → m.value? v = some b → ρ v = b

theorem agrees_value (m : Valuation) : m.Agrees m.value := by
  intro v b hv hValue
  rw [value, if_neg (Nat.not_lt.mpr hv), hValue]
  cases b <;> rfl

end Valuation

structure Solver where
  solve (p : Problem) (assumed : List Lit) : Option Valuation
  /-- The formula and the assumptions hold, whatever the open values are. -/
  sound : ∀ {p : Problem} {assumed : List Lit} {m : Valuation}, solve p assumed = some m →
    ∀ ρ, m.Agrees ρ → p.formula.holds ρ = true ∧ assumed.all (Lit.holds ρ) = true
  complete : ∀ {p : Problem} {assumed : List Lit}, solve p assumed = none →
    p.formula.Refutes assumed

namespace Solver

/-- Whether the formula has a model in which the given literals hold. -/
def sat (s : Solver) (p : Problem) (ls : List Lit) : Bool := (s.solve p ls).isSome

/-- The solver that learns clauses. It leaves no value open. -/
def learning : Solver where
  solve p assumed :=
    let q := p.assume assumed
    q.model?.map fun ρ => ⟨q.formula.maxVar, fun v => some (ρ v)⟩
  sound {p assumed m} hSolve ρ hAgrees := by
    obtain ⟨ρ', hModel, rfl⟩ := Option.map_eq_some_iff.mp hSolve
    have hEq : (p.assume assumed).formula.holds ρ = (p.assume assumed).formula.holds ρ' :=
      Cnf.holds_congr fun c hc l hl =>
        hAgrees l.var _ (Cnf.maxVar_le_iff.mp (Nat.le_refl _) c hc l hl) rfl
    rw [Problem.holds_of_model? hModel, Problem.holds_assume, Bool.and_eq_true] at hEq
    exact ⟨hEq.2, hEq.1⟩
  complete {p assumed} hSolve ρ hHolds := by
    have hNone := Problem.holds_eq_false_of_model? (Option.map_eq_none_iff.mp hSolve) ρ
    rwa [Problem.holds_assume, hHolds, Bool.and_true] at hNone

end Solver

end SoftError

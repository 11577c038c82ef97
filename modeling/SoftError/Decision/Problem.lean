import SoftError.Decision.Search
import SoftError.Learning.Basic

/-!
# Problems

A problem is a formula that grows clause by clause, together with what is known of it so
far. What is known is carried over when a clause is added. It never changes the answer: a
problem has a model if and only if its formula has one.
-/

namespace SoftError

structure Problem where
  /-- The clauses, the latest one first. -/
  formula : Cnf
  progress : Learning.Progress formula

namespace Problem

def empty : Problem := ⟨[], .ok .empty⟩

def add (c : Clause) (p : Problem) : Problem := ⟨c :: p.formula, p.progress.add c⟩

def ofCnf (f : Cnf) : Problem := f.foldr add empty

/-- Adds each literal as a unit clause. -/
def assume (ls : List Lit) (p : Problem) : Problem := (Cnf.units ls).foldr add p

/-- A model of the formula, if there is one. -/
def model? (p : Problem) : Option Assignment :=
  match Learning.search p.progress with
  | .model ρ _ => some ρ
  | .refuted _ _ => none
  | .open_ => p.formula.search.map Assignment.ofLits

/-- Whether the formula has a model in which the given literals hold. -/
def satUnder (p : Problem) (ls : List Lit) : Bool := (p.assume ls).model?.isSome

theorem formula_foldr_add (f : Cnf) (p : Problem) : (f.foldr add p).formula = f ++ p.formula := by
  induction f with
  | nil => rfl
  | cons c f ih => simp [add, ih]

@[simp]
theorem formula_ofCnf (f : Cnf) : (ofCnf f).formula = f := by
  simp [ofCnf, formula_foldr_add, empty]

@[simp]
theorem formula_assume (ls : List Lit) (p : Problem) :
    (p.assume ls).formula = Cnf.units ls ++ p.formula :=
  formula_foldr_add _ p

theorem holds_assume (p : Problem) (ls : List Lit) (ρ : Assignment) :
    (p.assume ls).formula.holds ρ = (ls.all (Lit.holds ρ) && p.formula.holds ρ) := by
  rw [formula_assume, Cnf.holds_append, Cnf.holds_units]

theorem holds_of_model? {p : Problem} {ρ : Assignment} (h : p.model? = some ρ) :
    p.formula.holds ρ = true := by
  rw [model?] at h
  cases hSearch : Learning.search p.progress with
  | model ρ' hHolds =>
    rw [hSearch] at h
    cases h
    exact hHolds
  | refuted fact hFact =>
    rw [hSearch] at h
    cases h
  | open_ =>
    rw [hSearch] at h
    obtain ⟨ls, hls, rfl⟩ := Option.map_eq_some_iff.mp h
    exact (Cnf.solves_search hls).holds

theorem holds_eq_false_of_model? {p : Problem} (h : p.model? = none) (ρ : Assignment) :
    p.formula.holds ρ = false := by
  rw [model?] at h
  cases hSearch : Learning.search p.progress with
  | model ρ' hHolds =>
    rw [hSearch] at h
    cases h
  | refuted fact hFact => exact Consequence.holds_eq_false hFact ρ
  | open_ =>
    rw [hSearch] at h
    exact Cnf.holds_eq_false_of_search (Option.map_eq_none_iff.mp h) ρ

end Problem

end SoftError

import SoftError.Formula.Basic

/-!
# Substitution and renaming

Assuming a literal removes the clauses it satisfies and its complement from the others.
Renaming replaces variables and keeps polarities.
-/

namespace SoftError.Cnf

/-- The formula under the assumption of `l`. -/
def condition (l : Lit) (f : Cnf) : Cnf :=
  (f.filter fun c => l ∉ c).map fun c => c.filter (· ≠ -l)

/-- Like `condition`, but a formula with an empty clause collapses to `unsat`. -/
def assume (l : Lit) (f : Cnf) : Cnf :=
  let g := condition l f
  if [] ∈ g then unsat else g

/-- The literal with its variable renamed, unless there is no new name. -/
def renameLit (target : Nat → Nat) (l : Lit) : Lit :=
  if h : target l.var = 0 then l else (Lit.ofVar (target l.var) h).withSign l.positive

/-- The least variable without a new name. A new name of `0` counts as none. -/
def unnamed? (target : Nat → Nat) (f : Cnf) : Option Nat :=
  ((f.flatten.map Lit.var).filter fun v => target v = 0).min?

/-- Renames every variable, or names one that has no new name. -/
def rename (target : Nat → Nat) (f : Cnf) : Except Nat Cnf :=
  match unnamed? target f with
  | some v => .error v
  | none => .ok (f.map fun c => c.map (renameLit target))

theorem condition_cons (l : Lit) (c : Clause) (f : Cnf) :
    condition l (c :: f) = if l ∈ c then condition l f else c.filter (· ≠ -l) :: condition l f := by
  by_cases h : l ∈ c <;> simp [condition, h]

theorem var_ne_of_mem_condition {l k : Lit} {c : Clause} {f : Cnf} (hc : c ∈ condition l f)
    (hk : k ∈ c) : k.var ≠ l.var := by
  obtain ⟨d, hd, rfl⟩ := List.mem_map.mp hc
  obtain ⟨_, hAbsent⟩ := List.mem_filter.mp hd
  obtain ⟨hkd, hNeg⟩ := List.mem_filter.mp hk
  rw [decide_eq_true_eq] at hAbsent hNeg
  intro hVar
  by_cases hSign : k.positive = l.positive
  · exact hAbsent (Lit.eq_of_var_of_positive hVar hSign ▸ hkd)
  · refine hNeg (Lit.eq_of_var_of_positive (hVar.trans (Lit.var_neg l).symm) ?_)
    rw [Lit.positive_neg]
    exact Bool.eq_not_of_ne hSign

theorem mem_flatten_of_mem_condition {l k : Lit} {f : Cnf} (h : k ∈ (condition l f).flatten) :
    k ∈ f.flatten := by
  obtain ⟨c, hc, hk⟩ := List.mem_flatten.mp h
  obtain ⟨d, hd, rfl⟩ := List.mem_map.mp hc
  exact List.mem_flatten.mpr ⟨d, (List.mem_filter.mp hd).1, (List.mem_filter.mp hk).1⟩

/-- What a literal says can be assumed where it holds. -/
theorem holds_condition {ρ : Assignment} {l : Lit} (hl : l.holds ρ = true) (f : Cnf) :
    (condition l f).holds ρ = f.holds ρ := by
  have hFalse : (-l).holds ρ = false := by rw [Lit.holds_neg, hl]; rfl
  induction f with
  | nil => rfl
  | cons c f ih =>
    have hCons : holds ρ (c :: f) = (Clause.holds ρ c && holds ρ f) := rfl
    rw [condition_cons, hCons, ← ih]
    split
    · rename_i hMem
      rw [Clause.holds_iff.mpr ⟨l, hMem, hl⟩, Bool.true_and]
    · refine congrArg (· && _) ?_
      rw [Clause.holds, Clause.holds, List.any_filter]
      refine List.any_congr rfl fun k => ?_
      by_cases hk : k = -l
      · rw [hk, hFalse, Bool.and_false]
      · rw [decide_eq_true hk, Bool.true_and]

end SoftError.Cnf

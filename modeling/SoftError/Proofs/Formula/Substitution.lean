import Mathlib.Logic.Function.Basic
import Mathlib.Order.Bounds.Defs
import SoftError.Proofs.Formula.Models

/-!
# Models of substituted formulas

Assuming a literal fixes its variable, and renaming reads an assignment through the new names.
So a model of the resulting formula gives one of the formula at the start, and evaluating the
result is evaluating the formula under another assignment.
-/

namespace SoftError

theorem Lit.holds_withSign (ρ : Assignment) (l : Lit) (b : Bool) :
    (l.withSign b).holds ρ = (if b then ρ l.var else !ρ l.var) := by
  rw [holds, eval, positive_withSign, var_withSign]

namespace Cnf

theorem mentions_iff {f : Cnf} {v : Nat} :
    f.mentions v = true ↔ v ∈ f.flatten.map Lit.var := by
  simp only [mentions, List.any_eq_true, decide_eq_true_eq, List.mem_map, List.mem_flatten]
  grind

section Assume

theorem mem_flatten_of_mem_assume {l k : Lit} {f : Cnf} (h : k ∈ (assume l f).flatten) :
    k ∈ f.flatten := by
  rw [assume] at h
  split at h
  · obtain ⟨c, hc, hk⟩ := List.mem_flatten.mp h
    rw [List.mem_singleton.mp hc] at hk
    cases hk
  · exact mem_flatten_of_mem_condition h

/-- What is left of a formula does not mention the variable, so that it may get its value. -/
theorem mem_models_assume {ρ : Assignment} {l : Lit} {f : Cnf} :
    ρ ∈ (assume l f).models ↔ Function.update ρ l.var l.positive ∈ f.models := by
  have hCondition : ρ ∈ (condition l f).models ↔
      Function.update ρ l.var l.positive ∈ f.models := by
    have hHolds : l.holds (Function.update ρ l.var l.positive) = true := by
      rw [Lit.holds_iff, Function.update_self]
    rw [← mem_models_condition hHolds]
    refine mem_models_congr fun c hc k hk => ?_
    rw [Function.update_of_ne (var_ne_of_mem_condition hc hk)]
  rw [assume]
  split
  · rename_i hEmpty
    rw [← hCondition]
    refine iff_of_false (fun h => ?_) fun h => ?_
    · have hNil := mem_models.mp h [] (List.mem_singleton_self _)
      simp [Clause.mem_models] at hNil
    · have hNil := mem_models.mp h [] hEmpty
      simp [Clause.mem_models] at hNil
  · exact hCondition

theorem assume_eq_unsat {l : Lit} {f : Cnf} (h : [] ∈ f.assume l) : f.assume l = unsat := by
  rw [assume] at h ⊢
  split at h
  · rename_i hEmpty
    exact if_pos hEmpty
  · rename_i hNone
    exact absurd h hNone

theorem mentions_assume (l : Lit) (f : Cnf) : (f.assume l).mentions l.var = false := by
  rw [← Bool.not_eq_true, mentions_iff, List.mem_map]
  rintro ⟨k, hk, hVar⟩
  obtain ⟨c, hc, hkc⟩ := List.mem_flatten.mp hk
  rw [assume] at hc
  split at hc
  · rw [List.mem_singleton.mp hc] at hkc
    cases hkc
  · exact var_ne_of_mem_condition hc hkc hVar

theorem holds_assume (l : Lit) (f : Cnf) (ρ : Assignment) :
    (f.assume l).holds ρ = f.holds (Function.update ρ l.var l.positive) := by
  rw [Bool.eq_iff_iff]
  exact mem_models_assume

end Assume

section Rename

variable {target : Nat → Nat} {f g : Cnf}

theorem holds_renameLit {l : Lit} (h : target l.var ≠ 0) (ρ : Assignment) :
    (renameLit target l).holds ρ = l.holds fun v => ρ (target v) := by
  rw [renameLit, dif_neg h, Lit.holds_withSign, Lit.var_ofVar]
  rfl

theorem var_renameLit {l : Lit} (h : target l.var ≠ 0) :
    (renameLit target l).var = target l.var := by
  rw [renameLit, dif_neg h, Lit.var_withSign, Lit.var_ofVar]

theorem rename_eq_ok (h : f.rename target = .ok g) :
    (∀ l ∈ f.flatten, target l.var ≠ 0) ∧ g = f.map fun c => c.map (renameLit target) := by
  rw [rename] at h
  split at h
  · cases h
  · rename_i hNone
    refine ⟨fun l hl hZero => ?_, (Except.ok.inj h).symm⟩
    have hMem : l.var ∈ (f.flatten.map Lit.var).filter fun v => target v = 0 :=
      List.mem_filter.mpr ⟨List.mem_map_of_mem hl, decide_eq_true hZero⟩
    rw [List.min?_eq_none_iff.mp hNone] at hMem
    cases hMem

/-- Renaming succeeds if every variable has a new name. -/
theorem rename_of_named (h : ∀ l ∈ f.flatten, target l.var ≠ 0) :
    f.rename target = .ok (f.map fun c => c.map (renameLit target)) := by
  have hNone : unnamed? target f = none := by
    rw [unnamed?, List.min?_eq_none_iff, List.filter_eq_nil_iff]
    rintro v hv
    obtain ⟨l, hl, rfl⟩ := List.mem_map.mp hv
    simpa using h l hl
  rw [rename, hNone]

theorem mem_models_rename (h : f.rename target = .ok g) {ρ : Assignment} :
    ρ ∈ g.models ↔ (fun v => ρ (target v)) ∈ f.models := by
  obtain ⟨hNamed, rfl⟩ := rename_eq_ok h
  rw [mem_models, mem_models, List.forall_mem_map]
  refine forall₂_congr fun c hc => ?_
  simp only [Clause.mem_models, List.mem_map, exists_exists_and_eq_and]
  refine exists_congr fun l => and_congr_right fun hl => ?_
  rw [holds_renameLit (hNamed l (List.mem_flatten.mpr ⟨c, hc, hl⟩))]

theorem rename_eq_error_iff {u : Nat} :
    f.rename target = .error u ↔ IsLeast {v | f.mentions v = true ∧ target v = 0} u := by
  have hMem : ∀ v, v ∈ ((f.flatten.map Lit.var).filter fun v => target v = 0) ↔
      f.mentions v = true ∧ target v = 0 := by
    intro v
    rw [List.mem_filter, mentions_iff, decide_eq_true_eq]
  have hLeast : unnamed? target f = some u ↔
      IsLeast {v | f.mentions v = true ∧ target v = 0} u := by
    rw [unnamed?, List.min?_eq_some_iff, hMem]
    exact and_congr_right fun _ => forall_congr' fun v => by rw [hMem]; rfl
  rw [← hLeast, rename]
  cases unnamed? target f with
  | none => simp
  | some v => simp

/-- What stands in the place of a formula after a renaming: the formula itself if it failed. -/
def afterRename (target : Nat → Nat) (f : Cnf) : Cnf := (f.rename target).toOption.getD f

theorem afterRename_of_error {u : Nat} (h : f.rename target = .error u) :
    f.afterRename target = f := by
  rw [afterRename, h]
  rfl

theorem afterRename_of_ok (h : f.rename target = .ok g) : f.afterRename target = g := by
  rw [afterRename, h]
  rfl

theorem getD_eq_zero_iff {names : List Nat} {v : Nat} :
    names.getD v 0 = 0 ↔ names[v]? = none ∨ names[v]? = some 0 := by
  rw [List.getD_eq_getElem?_getD]
  cases names[v]? <;> simp

end Rename

/-- Substitution and renaming can be done on the formula or on the assignment. A renaming fails
for the least variable without a new name, and changes nothing then. -/
theorem substitution_commutes_with_evaluation (f : Cnf) :
    (∀ (v : Nat) (hv : v ≠ 0) (b : Bool),
      let g := f.assume ((Lit.ofVar v hv).withSign b)
      g.mentions v = false ∧ ([] ∈ g → g = unsat) ∧
        ∀ ρ, g.holds ρ = f.holds (Function.update ρ v b)) ∧
    ∀ names : List Nat,
      let target := fun v => names.getD v 0
      (∀ u, f.rename target = .error u ∧ f.afterRename target = f ↔
        IsLeast {v | f.mentions v = true ∧ (names[v]? = none ∨ names[v]? = some 0)} u) ∧
      ((∀ v, f.mentions v = true → ∃ w ≠ 0, names[v]? = some w) →
        ∃ g, f.rename target = .ok g ∧ f.afterRename target = g ∧
          ∀ ρ, g.holds ρ = f.holds fun v => ρ (target v)) := by
  refine ⟨fun v hv b => ?_, fun names => ⟨fun u => ?_, fun hNamed => ?_⟩⟩
  · have hVar : ((Lit.ofVar v hv).withSign b).var = v := by
      rw [Lit.var_withSign, Lit.var_ofVar]
    refine ⟨?_, assume_eq_unsat, fun ρ => ?_⟩
    · simpa only [hVar] using mentions_assume ((Lit.ofVar v hv).withSign b) f
    · rw [holds_assume, hVar, Lit.positive_withSign]
  · simp only [← getD_eq_zero_iff]
    rw [← rename_eq_error_iff]
    exact and_iff_left_of_imp afterRename_of_error
  · have hTarget : ∀ l ∈ f.flatten, names.getD l.var 0 ≠ 0 := by
      intro l hl
      obtain ⟨w, hw, hName⟩ := hNamed l.var (mentions_iff.mpr (List.mem_map_of_mem hl))
      rw [ne_eq, getD_eq_zero_iff, hName]
      simpa using hw
    have hOk : f.rename (fun v => names.getD v 0) = .ok _ := rename_of_named hTarget
    refine ⟨_, hOk, afterRename_of_ok hOk, fun ρ => ?_⟩
    rw [Bool.eq_iff_iff]
    exact mem_models_rename hOk

/-- A clause that holds anyway, and two variables that get the same name. -/
def mergedNames : Cnf := [[2, -2], [-2, 3], [2, 4]]

theorem mentions_mergedNames {v : Nat} (h : mergedNames.mentions v = true) :
    v = 2 ∨ v = 3 ∨ v = 4 := by
  have hVars := mentions_iff.mp h
  simp only [show mergedNames.flatten.map Lit.var = [2, 2, 2, 3, 2, 4] from rfl,
    List.mem_cons, List.not_mem_nil, or_false] at hVars
  omega

theorem mergedNames_commutes :
    (mergedNames.rename fun v => [0, 1, 5, 5].getD v 0) = .error 4 ∧
      (∃ g, mergedNames.rename (fun v => [0, 1, 5, 5, 2].getD v 0) = .ok g ∧
        ∀ ρ, g.holds ρ = mergedNames.holds fun v => ρ ([0, 1, 5, 5, 2].getD v 0)) ∧
      ∀ ρ, (mergedNames.assume (-2)).holds ρ =
        mergedNames.holds (Function.update ρ 2 false) := by
  obtain ⟨hAssume, hRename⟩ := substitution_commutes_with_evaluation mergedNames
  obtain ⟨-, -, hHolds⟩ := hAssume 2 (by decide) false
  refine ⟨(((hRename [0, 1, 5, 5]).1 4).mpr ⟨by decide, ?_⟩).1, ?_, hHolds⟩
  · rintro v ⟨hVar, hName⟩
    rcases mentions_mergedNames hVar with rfl | rfl | rfl <;> simp_all
  · obtain ⟨g, hOk, -, hHolds⟩ := (hRename [0, 1, 5, 5, 2]).2 fun v hVar => by
      rcases mentions_mergedNames hVar with rfl | rfl | rfl <;> simp
    exact ⟨g, hOk, hHolds⟩

end Cnf

end SoftError

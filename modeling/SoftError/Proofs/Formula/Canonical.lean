import Mathlib.Data.Finset.Dedup
import Mathlib.Data.List.Lex
import SoftError.Formula.Subsumption
import SoftError.Proofs.Ascending
import SoftError.Proofs.Formula.Models

/-!
# Canonical formulas

A clause is kept as the ascending list of its literals and a formula as the ascending list of
such clauses, without repetitions in either. Literals are ordered as integers and clauses
lexicographically, so a canonical formula is determined by the sets of literals of its clauses.
-/

namespace SoftError

namespace Lit

theorem val_injective : Function.Injective Lit.val := fun _ _ => ext

theorem lt_iff_val_lt (a b : Lit) : a.lt b = true ↔ a.val < b.val := decide_eq_true_iff

end Lit

namespace Clause

variable {c d : Clause} {l : Lit}

/-- The integers of a clause, by which clauses are ordered. -/
def vals (c : Clause) : List Int := c.map Lit.val

theorem vals_injective : Function.Injective vals := List.map_injective_iff.mpr Lit.val_injective

theorem lt_iff_vals_lt (c d : Clause) : c.lt d = true ↔ c.vals < d.vals := by
  fun_induction lt c d with
  | case1 | case2 | case3 => simp [vals]
  | case4 a c b d ih =>
    simp only [vals, List.map_cons] at ih ⊢
    rw [Bool.or_eq_true, Bool.and_eq_true, decide_eq_true_eq, Lit.lt_iff_val_lt, ih,
      List.cons_lt_cons_iff, Lit.val_injective.eq_iff]

theorem mem_canonical : l ∈ c.canonical ↔ l ∈ c :=
  Ascending.mem_ofList_iff Lit.val_injective Lit.lt_iff_val_lt

theorem pairwise_canonical (c : Clause) : c.canonical.Pairwise fun a b => a.lt b = true :=
  Ascending.pairwise_lt_ofList Lit.lt_iff_val_lt c

theorem canonical_eq_canonical_iff : c.canonical = d.canonical ↔ c.toFinset = d.toFinset := by
  rw [canonical, canonical, Ascending.ofList_eq_ofList_iff Lit.val_injective Lit.lt_iff_val_lt,
    Finset.ext_iff]
  simp only [List.mem_toFinset]

theorem toFinset_canonical (c : Clause) : c.canonical.toFinset = c.toFinset := by
  ext l
  rw [List.mem_toFinset, List.mem_toFinset, mem_canonical]

theorem canonical_canonical (c : Clause) : c.canonical.canonical = c.canonical :=
  canonical_eq_canonical_iff.mpr c.toFinset_canonical

theorem mem_models_canonical {ρ : Assignment} : ρ ∈ c.canonical.models ↔ ρ ∈ c.models := by
  simp only [mem_models, mem_canonical]

end Clause

namespace Cnf

variable {f g : Cnf} {c : Clause}

/-- The sets of literals of the clauses. -/
def literalSets (f : Cnf) : Finset (Finset Lit) := (f.map List.toFinset).toFinset

theorem mem_canonical : c ∈ f.canonical ↔ ∃ d ∈ f, d.canonical = c := by
  rw [canonical, Ascending.mem_ofList_iff Clause.vals_injective Clause.lt_iff_vals_lt,
    List.mem_map]

/-- The clauses are the canonical ones among those with a set of literals of the formula. -/
theorem mem_canonical_iff_mem_literalSets :
    c ∈ f.canonical ↔ c.canonical = c ∧ c.toFinset ∈ f.literalSets := by
  rw [mem_canonical, literalSets, List.mem_toFinset, List.mem_map]
  constructor
  · rintro ⟨d, hd, rfl⟩
    exact ⟨d.canonical_canonical, d, hd, d.toFinset_canonical.symm⟩
  · rintro ⟨hCanonical, d, hd, hEq⟩
    exact ⟨d, hd, (Clause.canonical_eq_canonical_iff.mpr hEq).trans hCanonical⟩

theorem canonical_eq_canonical_iff : f.canonical = g.canonical ↔ f.literalSets = g.literalSets := by
  constructor
  · intro hEq
    ext S
    -- the ascending list of the literals in `S` is a clause of both or of neither
    have hSet : (Clause.canonical S.toList).toFinset = S := by
      rw [Clause.toFinset_canonical, Finset.toList_toFinset]
    have hMem : ∀ f : Cnf, Clause.canonical S.toList ∈ f.canonical ↔ S ∈ f.literalSets := by
      intro f
      rw [mem_canonical_iff_mem_literalSets, hSet, and_iff_right (Clause.canonical_canonical _)]
    rw [← hMem, hEq, hMem]
  · intro hSets
    rw [canonical, canonical,
      Ascending.ofList_eq_ofList_iff Clause.vals_injective Clause.lt_iff_vals_lt]
    intro c
    rw [List.mem_map, List.mem_map, ← mem_canonical, ← mem_canonical,
      mem_canonical_iff_mem_literalSets, hSets, mem_canonical_iff_mem_literalSets]

theorem models_canonical (f : Cnf) : f.canonical.models = f.models := by
  ext ρ
  simp only [mem_models, mem_canonical, forall_exists_index, and_imp,
    forall_apply_eq_imp_iff₂, Clause.mem_models_canonical]

/-- Formulas have the same canonical form exactly if their clauses have the same sets of literals.
It is ascending in its clauses, which are ascending in their literals, and has the same models. -/
theorem canonical_is_canonical_form (f g : Cnf) :
    (f.canonical = g.canonical ↔ f.literalSets = g.literalSets) ∧
      (f.canonical.Pairwise fun c d => c.lt d = true) ∧
      (∀ c ∈ f.canonical, c.Pairwise fun a b => a.lt b = true) ∧
      ∀ ρ, f.canonical.holds ρ = f.holds ρ := by
  refine ⟨canonical_eq_canonical_iff, Ascending.pairwise_lt_ofList Clause.lt_iff_vals_lt _,
    fun c hc => ?_, fun ρ => ?_⟩
  · obtain ⟨d, _, rfl⟩ := mem_canonical.mp hc
    exact d.pairwise_canonical
  · rw [Bool.eq_iff_iff, ← mem_models_iff, ← mem_models_iff, models_canonical]

end Cnf

end SoftError

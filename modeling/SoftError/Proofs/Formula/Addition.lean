import SoftError.Proofs.Formula.Canonical
import SoftError.Proofs.Formula.Subsumption

/-!
# Clauses added one by one

A new clause takes the place of those that include it, but it is added even if it includes one of
the formula itself. So a formula without clauses that include others stays one exactly if the new
clause does not properly include one. Of clauses that are added one after another, those stay
that include no later one.
-/

namespace SoftError

namespace Clause

variable {c d : Clause}

instance : Decidable (Incomparable c d) := inferInstanceAs (Decidable (_ ∧ _))

theorem not_subset_iff : (!c.subset d) = true ↔ ¬ c.toFinset ⊆ d.toFinset := by
  rw [Bool.not_eq_true', ← Bool.not_eq_true, subset_iff]

end Clause

namespace Cnf

variable {c d : Clause} {f cs : Cnf}

section Step

theorem mem_models_subsume {ρ : Assignment} :
    ρ ∈ (f.subsume c).models ↔ ρ ∈ f.models ∧ ρ ∈ c.models := by
  rw [subsume, mem_models_append, mem_models_cons, mem_models, mem_models (f := f)]
  constructor
  · rintro ⟨hKept, hc, -⟩
    refine ⟨fun d hd => ?_, hc⟩
    by_cases hSubset : c.toFinset ⊆ d.toFinset
    · exact Clause.mem_models_of_subset hSubset hc
    · exact hKept d (List.mem_filter.mpr ⟨hd, Clause.not_subset_iff.mpr hSubset⟩)
  · rintro ⟨hf, hc⟩
    exact ⟨fun d hd => hf d (List.mem_filter.mp hd).1, hc, mem_models.mpr (List.forall_mem_nil _)⟩

theorem holds_subsume (f : Cnf) (c : Clause) (ρ : Assignment) :
    (f.subsume c).holds ρ = (f.holds ρ && c.holds ρ) := by
  rw [Bool.eq_iff_iff, Bool.and_eq_true]
  exact mem_models_subsume

theorem subsumes_iff : f.subsumes c = true ↔ (f.filter fun d => !c.subset d) ≠ f := by
  rw [Ne, List.filter_eq_self, subsumes, List.any_eq_true]
  simp

theorem pairwise_subsume_iff (hf : f.Pairwise Clause.Incomparable) :
    (f.subsume c).Pairwise Clause.Incomparable ↔ ∀ d ∈ f, ¬ d.toFinset ⊂ c.toFinset := by
  rw [subsume, List.pairwise_append]
  constructor
  · rintro ⟨-, -, hNew⟩ d hd ⟨hBelow, hNot⟩
    have hKept : d ∈ f.filter fun d => !c.subset d :=
      List.mem_filter.mpr ⟨hd, Clause.not_subset_iff.mpr hNot⟩
    exact (hNew d hKept c List.mem_cons_self).1 (Clause.toFinset_subset_iff.mp hBelow)
  · intro h
    refine ⟨hf.filter _, List.pairwise_singleton _ _, fun d hd e he => ?_⟩
    obtain rfl := List.mem_singleton.mp he
    obtain ⟨hd, hNot⟩ := List.mem_filter.mp hd
    have hNot := Clause.not_subset_iff.mp hNot
    refine ⟨fun hBelow => ?_, fun hAbove => hNot (Clause.toFinset_subset_iff.mpr hAbove)⟩
    exact h d hd ⟨Clause.toFinset_subset_iff.mpr hBelow, hNot⟩

end Step

section Run

/-- The clauses that include no later one. -/
def lasting : Cnf → Cnf
  | [] => []
  | c :: cs => if cs.any fun d => d.subset c then lasting cs else c :: lasting cs

theorem foldl_subsume (f cs : Cnf) :
    cs.foldl subsume f = (f.filter fun d => !cs.any fun e => e.subset d) ++ cs.lasting := by
  induction cs generalizing f with
  | nil => simp [lasting]
  | cons c cs ih =>
    rw [List.foldl_cons, ih, subsume, List.filter_append, List.filter_filter, List.append_assoc,
      lasting]
    -- the clauses of `f` have to pass one test more, and `c` itself those of the later clauses
    congr 1
    · refine List.filter_congr fun d _ => ?_
      rw [List.any_cons, Bool.not_or, Bool.and_comm]
    · rw [List.filter_singleton]
      cases cs.any fun d => d.subset c <;> rfl

theorem mem_lasting :
    c ∈ cs.lasting ↔
      ∃ before after, cs = before ++ c :: after ∧ ∀ d ∈ after, ¬ d.toFinset ⊆ c.toFinset := by
  fun_induction lasting cs with
  | case1 => simp
  | case2 b cs hLater ih =>
    rw [ih]
    constructor
    · rintro ⟨before, after, rfl, hNone⟩
      exact ⟨b :: before, after, rfl, hNone⟩
    · rintro ⟨before, after, hSplit, hNone⟩
      cases before with
      | nil =>
        obtain ⟨rfl, rfl⟩ := List.cons.inj hSplit
        obtain ⟨d, hd, hSubset⟩ := List.any_eq_true.mp hLater
        exact absurd (Clause.subset_iff.mp hSubset) (hNone d hd)
      | cons e before => exact ⟨before, after, (List.cons.inj hSplit).2, hNone⟩
  | case3 b cs hLater ih =>
    rw [List.mem_cons, ih]
    constructor
    · rintro (rfl | ⟨before, after, rfl, hNone⟩)
      · refine ⟨[], cs, rfl, fun d hd hSubset => hLater ?_⟩
        exact List.any_eq_true.mpr ⟨d, hd, Clause.subset_iff.mpr hSubset⟩
      · exact ⟨b :: before, after, rfl, hNone⟩
    · rintro ⟨before, after, hSplit, hNone⟩
      cases before with
      | nil => exact .inl (List.cons.inj hSplit).1.symm
      | cons e before => exact .inr ⟨before, after, (List.cons.inj hSplit).2, hNone⟩

theorem mem_of_mem_lasting (h : c ∈ cs.lasting) : c ∈ cs := by
  obtain ⟨before, after, rfl, -⟩ := mem_lasting.mp h
  simp

theorem exists_lasting (hd : d ∈ cs) : ∃ k ∈ cs.lasting, k.toFinset ⊆ d.toFinset := by
  fun_induction lasting cs generalizing d with
  | case1 => cases hd
  | case2 c cs hLater ih =>
    rcases List.mem_cons.mp hd with rfl | hd
    · obtain ⟨e, he, hSubset⟩ := List.any_eq_true.mp hLater
      obtain ⟨k, hk, hBelow⟩ := ih he
      exact ⟨k, hk, hBelow.trans (Clause.subset_iff.mp hSubset)⟩
    · exact ih hd
  | case3 c cs _ ih =>
    rcases List.mem_cons.mp hd with rfl | hd
    · exact ⟨d, List.mem_cons_self, subset_rfl⟩
    · obtain ⟨k, hk, hBelow⟩ := ih hd
      exact ⟨k, List.mem_cons_of_mem c hk, hBelow⟩

theorem mem_map_lasting_of_minimal {S : Finset Lit}
    (h : Minimal (· ∈ cs.map List.toFinset) S) : S ∈ cs.lasting.map List.toFinset := by
  obtain ⟨d, hd, rfl⟩ := List.mem_map.mp h.prop
  obtain ⟨k, hk, hBelow⟩ := exists_lasting hd
  have hMem := List.mem_map_of_mem (f := List.toFinset) (mem_of_mem_lasting hk)
  exact List.mem_map.mpr ⟨k, hk, h.eq_of_le hMem hBelow⟩

/-- Each clause that properly includes an earlier one also includes a later one. -/
def ReplacesLarger (cs : Cnf) : Prop :=
  ∀ before c after, cs = before ++ c :: after → (∃ d ∈ before, d.toFinset ⊂ c.toFinset) →
    ∃ d ∈ after, d.toFinset ⊆ c.toFinset

theorem ReplacesLarger.minimal (h : cs.ReplacesLarger) (hc : c ∈ cs.lasting) :
    Minimal (· ∈ cs.map List.toFinset) c.toFinset := by
  refine ⟨List.mem_map_of_mem (mem_of_mem_lasting hc), fun S hS hBelow => ?_⟩
  obtain ⟨before, after, hSplit, hNone⟩ := mem_lasting.mp hc
  obtain ⟨d, hd, rfl⟩ := List.mem_map.mp hS
  rw [hSplit, List.mem_append, List.mem_cons] at hd
  -- with a smaller clause before `c` some later one replaces `c`, and a smaller one after it does
  rcases hd with hd | rfl | hd
  · by_contra hNot
    obtain ⟨e, he, hSubset⟩ := h before c after hSplit ⟨d, hd, hBelow, hNot⟩
    exact hNone e he hSubset
  · exact subset_rfl
  · exact absurd hBelow (hNone d hd)

theorem replacesLarger_iff :
    cs.ReplacesLarger ↔ (cs.foldl subsume []).literalSets = cs.simplify.literalSets := by
  rw [foldl_subsume, List.filter_nil, List.nil_append, simplify_eq_leading, Finset.ext_iff]
  simp only [literalSets, List.mem_toFinset, mem_map_toFinset_leading]
  constructor
  · refine fun h S => ⟨fun hS => ?_, mem_map_lasting_of_minimal⟩
    obtain ⟨c, hc, rfl⟩ := List.mem_map.mp hS
    exact h.minimal hc
  · rintro h before c after rfl ⟨d, hd, hBelow, hNot⟩
    by_contra hNone
    simp only [not_exists, not_and] at hNone
    have hMinimal := (h c.toFinset).mp
      (List.mem_map_of_mem (mem_lasting.mpr ⟨before, after, rfl, hNone⟩))
    exact hNot (hMinimal.le_of_le (List.mem_map_of_mem (List.mem_append_left _ hd)) hBelow)

end Run

/-- What a new clause does to a formula without clauses that include others, and when clauses that
are added one by one leave the same sets of literals as simplification of all of them. -/
theorem subsume_replaces_larger (hf : f.Pairwise Clause.Incomparable) (c : Clause) :
    ((f.subsume c).Pairwise Clause.Incomparable ↔ ∀ d ∈ f, ¬ d.toFinset ⊂ c.toFinset) ∧
      (∀ ρ, (f.subsume c).holds ρ = (f.holds ρ && c.holds ρ)) ∧
      (∃ kept, f.subsume c = kept ++ [c] ∧ kept.Sublist f ∧
        (f.subsumes c = true ↔ kept ≠ f)) ∧
      ∀ cs : Cnf, cs.ReplacesLarger ↔
        (cs.foldl subsume []).literalSets = cs.simplify.literalSets :=
  ⟨pairwise_subsume_iff hf, holds_subsume f c,
    ⟨_, rfl, List.filter_sublist, subsumes_iff⟩, fun _ => replacesLarger_iff⟩

def overlapping : Cnf := [[2, 3, -4], [5, -6], [-4, 5]]

/-- The clause of `-4` and `2` replaces the first one. Where `3` is added last, it replaces the
clause that properly includes `2`. -/
theorem overlapping_replaces_larger :
    overlapping.Pairwise Clause.Incomparable ∧
      (overlapping.subsume [-4, 2]).Pairwise Clause.Incomparable ∧
      (∀ ρ, (overlapping.subsume [-4, 2]).holds ρ =
        (overlapping.holds ρ && Clause.holds ρ [-4, 2])) ∧
      overlapping.subsume [-4, 2] = [[5, -6], [-4, 5]] ++ [[-4, 2]] ∧
      overlapping.subsumes [-4, 2] = true ∧ ReplacesLarger [[2], [3, 2], [3]] := by
  have hIncomparable : overlapping.Pairwise Clause.Incomparable := by decide
  obtain ⟨hStep, hHolds, ⟨kept, hKept, -, hFlag⟩, hRun⟩ :=
    subsume_replaces_larger hIncomparable [-4, 2]
  have hResult : overlapping.subsume [-4, 2] = [[5, -6], [-4, 5]] ++ [[-4, 2]] := by decide
  obtain rfl := List.append_cancel_right (hKept.symm.trans hResult)
  exact ⟨hIncomparable, hStep.mpr (by decide), hHolds, hResult, hFlag.mpr (by decide),
    (hRun _).mpr (by decide)⟩

def weakened : Cnf := [[2], [2, 3]]

/-- The second clause includes the first one, and both stay. -/
theorem weakened_not_replaced :
    List.Pairwise Clause.Incomparable [[2]] ∧
      ¬ (subsume [[2]] [2, 3]).Pairwise Clause.Incomparable ∧
      (weakened.foldl subsume []).literalSets ≠ weakened.simplify.literalSets := by
  decide

end Cnf

end SoftError

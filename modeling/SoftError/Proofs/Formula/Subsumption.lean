import Mathlib.Data.Finset.Dedup
import Mathlib.Data.List.Induction
import Mathlib.Data.List.Pairwise
import Mathlib.Order.Minimal
import SoftError.Formula.Subsumption
import SoftError.Proofs.Formula.Models

/-!
# What simplification keeps

A single pass over the clauses skips some of them and drops others that it kept before. What it
leaves can be said without the pass: of every set of literals that is minimal under inclusion, the
first clause that has it. Every clause includes one of these, so that the models are the same.
-/

namespace SoftError

namespace Clause

variable {c d : Clause}

theorem toFinset_subset_iff : c.toFinset ⊆ d.toFinset ↔ c ⊆ d := by
  simp [Finset.subset_iff, List.subset_def]

theorem subset_iff : c.subset d = true ↔ c.toFinset ⊆ d.toFinset := by
  simp [subset, Finset.subset_iff]

theorem mem_models_of_subset {ρ : Assignment} (h : c.toFinset ⊆ d.toFinset) (hρ : ρ ∈ c.models) :
    ρ ∈ d.models := by
  obtain ⟨l, hl, hHolds⟩ := mem_models.mp hρ
  exact mem_models.mpr ⟨l, toFinset_subset_iff.mp h hl, hHolds⟩

/-- Neither clause has all literals of the other. -/
def Incomparable (c d : Clause) : Prop := ¬ c ⊆ d ∧ ¬ d ⊆ c

instance : Std.Symm Incomparable := ⟨fun _ _ => And.symm⟩

end Clause

namespace Cnf

variable {c d : Clause} {f : Cnf} {i : Nat}

/-- The set of literals of `c` is minimal, and no clause before position `i` has the same set. -/
structure Leads (f : Cnf) (c : Clause) (i : Nat) : Prop where
  minimal : Minimal (· ∈ f.map List.toFinset) c.toFinset
  first : ∀ d ∈ f.take i, d.toFinset ≠ c.toFinset

theorem leads_iff : f.Leads c i ↔
    (c.toFinset ∈ f.map List.toFinset ∧
      ∀ S ∈ f.map List.toFinset, S ⊆ c.toFinset → c.toFinset ⊆ S) ∧
      ∀ d ∈ f.take i, d.toFinset ≠ c.toFinset :=
  ⟨fun h => ⟨h.minimal, h.first⟩, fun h => ⟨h.1, h.2⟩⟩

instance : Decidable (f.Leads c i) := decidable_of_iff' _ leads_iff

/-- The first clause of each minimal set of literals, in the order of the formula. -/
def leading (f : Cnf) : Cnf := (f.zipIdx.filter fun x => f.Leads x.1 x.2).map Prod.fst

theorem mem_leading : c ∈ f.leading ↔ ∃ i, f[i]? = some c ∧ f.Leads c i := by
  simp [leading, List.mem_zipIdx_iff_getElem?]

section Append

theorem minimal_append_iff (hd : d ∈ f) :
    Minimal (· ∈ (f ++ [c]).map List.toFinset) d.toFinset ↔
      Minimal (· ∈ f.map List.toFinset) d.toFinset ∧ ¬ c.toFinset ⊂ d.toFinset := by
  have hMem : d.toFinset ∈ f.map List.toFinset := List.mem_map_of_mem hd
  simp only [Minimal, List.map_append, List.map_cons, List.map_nil, List.mem_append,
    List.mem_singleton, hMem, true_or, true_and, or_imp, forall_and, forall_eq,
    Finset.ssubset_def, not_and, not_not]

theorem leads_append_iff (hd : f[i]? = some d) :
    (f ++ [c]).Leads d i ↔ f.Leads d i ∧ ¬ c.toFinset ⊂ d.toFinset := by
  obtain ⟨hi, -⟩ := List.getElem?_eq_some_iff.mp hd
  have hTake : (f ++ [c]).take i = f.take i := List.take_append_of_le_length hi.le
  have hMinimal := minimal_append_iff (c := c) (List.mem_of_getElem? hd)
  constructor
  · rintro ⟨hBoth, hFirst⟩
    obtain ⟨hOld, hNot⟩ := hMinimal.mp hBoth
    exact ⟨⟨hOld, hTake ▸ hFirst⟩, hNot⟩
  · rintro ⟨⟨hOld, hFirst⟩, hNot⟩
    exact ⟨hMinimal.mpr ⟨hOld, hNot⟩, hTake ▸ hFirst⟩

theorem leads_length_iff :
    (f ++ [c]).Leads c f.length ↔ ¬ (f.any fun d => d.subset c) = true := by
  rw [leads_iff, List.take_left, List.any_eq_true]
  simp only [Clause.subset_iff, not_exists, not_and]
  constructor
  · rintro ⟨⟨-, hMinimal⟩, hFirst⟩ d hd hSubset
    have hMem : d.toFinset ∈ (f ++ [c]).map List.toFinset :=
      List.mem_map_of_mem (List.mem_append_left _ hd)
    exact hFirst d hd (hSubset.antisymm (hMinimal _ hMem hSubset))
  · refine fun h => ⟨⟨List.mem_map_of_mem (by simp), fun S hS hSubset => ?_⟩, fun d hd hEq => ?_⟩
    · obtain ⟨d, hd, rfl⟩ := List.mem_map.mp hS
      rcases List.mem_append.mp hd with hd | hd
      · exact absurd hSubset (h d hd)
      · rw [List.mem_singleton.mp hd]
    · exact h d hd hEq.subset

/-- A new clause takes the place of those that include it, unless it includes one itself. -/
theorem leading_append (f : Cnf) (c : Clause) :
    (f ++ [c]).leading = f.leading.filter (fun d => d.subset c || !c.subset d) ++
      if f.any fun d => d.subset c then [] else [c] := by
  have hOld : f.zipIdx.filter (fun x => (f ++ [c]).Leads x.1 x.2) =
      (f.zipIdx.filter fun x => f.Leads x.1 x.2).filter fun x =>
        x.1.subset c || !c.subset x.1 := by
    rw [List.filter_filter]
    refine List.filter_congr fun x hx => ?_
    have hx : f[x.2]? = some x.1 := List.mem_zipIdx_iff_getElem?.mp hx
    rw [Bool.eq_iff_iff, decide_eq_true_eq, leads_append_iff hx, Bool.and_eq_true, and_comm,
      decide_eq_true_eq, Bool.or_eq_true, Bool.not_eq_true', ← Bool.not_eq_true]
    simp only [Clause.subset_iff, Finset.ssubset_def, not_and_or, not_not, or_comm]
  have hNew : [(c, f.length)].filter (fun x => (f ++ [c]).Leads x.1 x.2) =
      if f.any fun d => d.subset c then [] else [(c, f.length)] := by
    simp only [List.filter_cons, List.filter_nil, decide_eq_true_eq, leads_length_iff, ite_not]
  rw [leading, leading, List.zipIdx_append, List.filter_append, List.map_append, hOld]
  simp only [List.zipIdx_cons, List.zipIdx_nil, Nat.zero_add, hNew, List.filter_map]
  split <;> rfl

end Append

theorem exists_leading (hd : d ∈ f) : ∃ k ∈ f.leading, k.toFinset ⊆ d.toFinset := by
  obtain ⟨S, hSubset, hMinimal⟩ := exists_minimal_le_of_wellFoundedLT
    (· ∈ f.map List.toFinset) d.toFinset (List.mem_map_of_mem hd)
  have hSome : (f.find? fun k => k.toFinset = S).isSome := by
    obtain ⟨k, hk, hEq⟩ := List.mem_map.mp hMinimal.prop
    exact List.find?_isSome.mpr ⟨k, hk, decide_eq_true hEq⟩
  obtain ⟨k, hFind⟩ := Option.isSome_iff_exists.mp hSome
  obtain ⟨hEq, before, after, hSplit, hBefore⟩ := List.find?_eq_some_iff_append.mp hFind
  obtain rfl : k.toFinset = S := of_decide_eq_true hEq
  refine ⟨k, mem_leading.mpr ⟨before.length, by simp [hSplit], hMinimal, ?_⟩, hSubset⟩
  rw [hSplit, List.take_left]
  intro e he
  simpa using hBefore e he

theorem mem_and_minimal_of_mem_leading (h : c ∈ f.leading) :
    c ∈ f ∧ Minimal (· ∈ f.map List.toFinset) c.toFinset := by
  obtain ⟨i, hi, hLeads⟩ := mem_leading.mp h
  exact ⟨List.mem_of_getElem? hi, hLeads.minimal⟩

theorem any_subset_leading (f : Cnf) (c : Clause) :
    (f.leading.any fun k => k.subset c) = f.any fun d => d.subset c := by
  rw [Bool.eq_iff_iff, List.any_eq_true, List.any_eq_true]
  constructor
  · rintro ⟨k, hk, hSubset⟩
    exact ⟨k, (mem_and_minimal_of_mem_leading hk).1, hSubset⟩
  · rintro ⟨d, hd, hSubset⟩
    obtain ⟨k, hk, hBelow⟩ := exists_leading hd
    exact ⟨k, hk, Clause.subset_iff.mpr (hBelow.trans (Clause.subset_iff.mp hSubset))⟩

theorem simplifyStep_leading (f : Cnf) (c : Clause) :
    simplifyStep f.leading c = (f ++ [c]).leading := by
  rw [leading_append, simplifyStep, any_subset_leading]
  split
  · rename_i hAny
    obtain ⟨k, hk, hSubset⟩ := List.any_eq_true.mp hAny
    rw [List.append_nil, eq_comm, List.filter_eq_self]
    intro d hd
    obtain ⟨-, hMinimal⟩ := mem_and_minimal_of_mem_leading hd
    rw [Bool.or_eq_true, Bool.not_eq_true', ← Bool.not_eq_true, or_iff_not_imp_right, not_not,
      Clause.subset_iff, Clause.subset_iff]
    -- `k` is included in `d`, which is minimal, so that `c` lies between two equal sets
    intro hAbove
    have hkc := Clause.subset_iff.mp hSubset
    exact (hMinimal.le_of_le (List.mem_map_of_mem hk) (hkc.trans hAbove)).trans hkc
  · rename_i hAny
    rw [subsume]
    congr 1
    refine List.filter_congr fun d hd => ?_
    have hNot : d.subset c = false := by
      rw [← Bool.not_eq_true]
      exact fun h => hAny (List.any_eq_true.mpr ⟨d, (mem_and_minimal_of_mem_leading hd).1, h⟩)
    rw [hNot, Bool.false_or]

theorem simplify_eq_leading (f : Cnf) : f.simplify = f.leading := by
  induction f using List.reverseRecOn with
  | nil => rfl
  | append_singleton f c ih =>
    rw [simplify, List.foldl_append]
    exact (congrArg (simplifyStep · c) ih).trans (simplifyStep_leading f c)

theorem incomparable_of_minimal (hc : Minimal (· ∈ f.map List.toFinset) c.toFinset)
    (hd : Minimal (· ∈ f.map List.toFinset) d.toFinset) (h : c.toFinset ≠ d.toFinset) :
    Clause.Incomparable c d := by
  constructor
  · intro hSubset
    exact h (hd.eq_of_le hc.prop (Clause.toFinset_subset_iff.mpr hSubset))
  · intro hSubset
    exact h (hc.eq_of_le hd.prop (Clause.toFinset_subset_iff.mpr hSubset)).symm

theorem pairwise_leading (f : Cnf) : f.leading.Pairwise Clause.Incomparable := by
  have hBefore : f.zipIdx.Pairwise fun x y => x.1 ∈ f.take y.2 := by
    rw [List.pairwise_iff_getElem]
    intro i j hi hj hLess
    rw [List.length_zipIdx] at hi
    rw [List.getElem_zipIdx, List.getElem_zipIdx, List.mem_take_iff_getElem]
    exact ⟨i, by omega, rfl⟩
  rw [leading, List.pairwise_map, List.pairwise_filter]
  refine hBefore.imp fun {x y} hxy hx hy => ?_
  rw [decide_eq_true_eq] at hx hy
  exact incomparable_of_minimal hx.minimal hy.minimal (hy.first x.1 hxy)

/-- Where no clause includes another one, all of them lead. -/
theorem leading_eq_self (h : f.Pairwise Clause.Incomparable) : f.leading = f := by
  have hLeads : ∀ x ∈ f.zipIdx, f.Leads x.1 x.2 := by
    rintro ⟨c, i⟩ hx
    have hc : f[i]? = some c := List.mem_zipIdx_iff_getElem?.mp hx
    have hMem : c ∈ f := List.mem_of_getElem? hc
    refine ⟨⟨List.mem_map_of_mem hMem, fun S hS hSubset => ?_⟩, fun d hd hEq => ?_⟩
    · obtain ⟨d, hd, rfl⟩ := List.mem_map.mp hS
      by_cases hEq : d = c
      · rw [hEq]
      · have := h.forall hd hMem hEq
        exact absurd (Clause.toFinset_subset_iff.mp hSubset) this.1
    · obtain ⟨j, hj, rfl⟩ := List.mem_take_iff_getElem.mp hd
      obtain ⟨hi, rfl⟩ := List.getElem?_eq_some_iff.mp hc
      have := List.pairwise_iff_getElem.mp h j i (by omega) hi (by omega)
      exact this.1 (Clause.toFinset_subset_iff.mp hEq.subset)
  rw [leading, List.filter_eq_self.mpr fun x hx => decide_eq_true (hLeads x hx),
    List.zipIdx_map_fst]

theorem leading_sublist (f : Cnf) : f.leading.Sublist f := by
  conv_rhs => rw [← List.zipIdx_map_fst 0 f]
  exact List.filter_sublist.map Prod.fst

theorem mem_map_toFinset_leading {S : Finset Lit} :
    S ∈ f.leading.map List.toFinset ↔ Minimal (· ∈ f.map List.toFinset) S := by
  constructor
  · intro h
    obtain ⟨c, hc, rfl⟩ := List.mem_map.mp h
    exact (mem_and_minimal_of_mem_leading hc).2
  · intro h
    obtain ⟨d, hd, rfl⟩ := List.mem_map.mp h.prop
    obtain ⟨k, hk, hSubset⟩ := exists_leading hd
    have hkf := List.mem_map_of_mem (f := List.toFinset) (mem_and_minimal_of_mem_leading hk).1
    exact List.mem_map.mpr ⟨k, hk, h.eq_of_le hkf hSubset⟩

theorem nodup_map_toFinset_leading (f : Cnf) : (f.leading.map List.toFinset).Nodup := by
  refine List.pairwise_map.mpr ((pairwise_leading f).imp fun {c d} h hEq => ?_)
  exact h.1 (Clause.toFinset_subset_iff.mp hEq.subset)

theorem models_leading (f : Cnf) : f.leading.models = f.models := by
  ext ρ
  rw [mem_models, mem_models]
  constructor
  · intro h d hd
    obtain ⟨k, hk, hSubset⟩ := exists_leading hd
    exact Clause.mem_models_of_subset hSubset (h k hk)
  · exact fun h c hc => h c (mem_and_minimal_of_mem_leading hc).1

/-- Simplification leaves one clause for each minimal set of literals, the first that has it, and
loses nothing by that. -/
theorem simplify_leaves_minimal (f : Cnf) :
    f.simplify = f.leading ∧ (f.simplify.map List.toFinset).Nodup ∧
      (∀ S, S ∈ f.simplify.map List.toFinset ↔ Minimal (· ∈ f.map List.toFinset) S) ∧
      f.simplify.Sublist f ∧ f.simplify.Pairwise Clause.Incomparable ∧
      (∀ ρ, f.simplify.holds ρ = f.holds ρ) ∧ f.simplify.simplify = f.simplify := by
  rw [simplify_eq_leading, simplify_eq_leading]
  refine ⟨rfl, nodup_map_toFinset_leading f, fun _ => mem_map_toFinset_leading,
    leading_sublist f, pairwise_leading f, fun ρ => ?_, leading_eq_self (pairwise_leading f)⟩
  rw [Bool.eq_iff_iff, ← mem_models_iff, ← mem_models_iff, models_leading]

end Cnf

end SoftError

import SoftError.Formula.Propagation
import SoftError.Proofs.Ascending
import SoftError.Proofs.Formula.Models

/-!
# What elimination preserves

A model of a formula is a model of what elimination leaves of it. The converse, up to the
variables that are not kept, needs that no literal is dropped as pure after its complement
was forced: a pass of unit propagation applies a forced literal only to the clauses after
it, so an earlier clause can still hold the complement, and satisfying that clause by it
would contradict the unit.
-/

namespace SoftError

/-- Makes the given literals true and keeps the other variables. -/
def Assignment.satisfying (ls : List Lit) (ρ : Assignment) : Assignment := fun v =>
  ((ls.find? fun l => l.var = v).map Lit.positive).getD (ρ v)

/-- No literal stands in the list with its complement. -/
def Lit.Consistent (ls : List Lit) : Prop := ∀ l ∈ ls, -l ∉ ls

theorem Lit.eq_or_eq_neg_of_var {k l : Lit} (h : k.var = l.var) : k = l ∨ k = -l := by
  by_cases hSign : k.positive = l.positive
  · exact .inl (eq_of_var_of_positive h hSign)
  · refine .inr (eq_of_var_of_positive (h.trans (var_neg l).symm) ?_)
    rw [positive_neg, Bool.eq_not]
    exact hSign

theorem Lit.Consistent.eq_of_var {ls : List Lit} (h : Consistent ls) {k l : Lit} (hk : k ∈ ls)
    (hl : l ∈ ls) (hVar : k.var = l.var) : k = l := by
  rcases eq_or_eq_neg_of_var hVar with hEq | rfl
  · exact hEq
  · exact absurd hk (h l hl)

theorem meets_satisfying {ls : List Lit} (h : Lit.Consistent ls) (ρ : Assignment) :
    Meets (ρ.satisfying ls) ls := by
  intro l hl
  have hFound : (ls.find? fun k => k.var = l.var).isSome := by
    rw [List.find?_isSome]
    exact ⟨l, hl, by simp⟩
  obtain ⟨k, hk⟩ := Option.isSome_iff_exists.mp hFound
  have hVar : k.var = l.var := by simpa using List.find?_some hk
  obtain rfl := h.eq_of_var (List.mem_of_find?_eq_some hk) hl hVar
  rw [Lit.holds_iff, Assignment.satisfying, hk]
  rfl

theorem satisfying_of_notMem {ls : List Lit} {v : Nat} (h : v ∉ ls.map Lit.var)
    (ρ : Assignment) : ρ.satisfying ls v = ρ v := by
  have hNone : (ls.find? fun l => l.var = v) = none := by
    rw [List.find?_eq_none]
    intro l hl hVar
    exact h (List.mem_map.mpr ⟨l, hl, by simpa using hVar⟩)
  rw [Assignment.satisfying, hNone]
  rfl

theorem holds_satisfying_of_notMem {ls : List Lit} {l : Lit} (h : l ∉ ls) (hNeg : -l ∉ ls)
    (ρ : Assignment) : l.holds (ρ.satisfying ls) = l.holds ρ := by
  refine Lit.holds_congr (satisfying_of_notMem ?_ ρ)
  intro hVar
  obtain ⟨k, hk, hkVar⟩ := List.mem_map.mp hVar
  rcases Lit.eq_or_eq_neg_of_var hkVar with rfl | rfl
  · exact h hk
  · exact hNeg hk

namespace Cnf

variable {keep : Std.TreeSet Nat} {forced units : LitSet} {c d : Clause} {f g : Cnf}
  {ρ : Assignment}

section Propagation

theorem mem_models_of_reduce_eq_none (h : reduce forced c = none)
    (hForced : Meets ρ forced.toList) : ρ ∈ c.models := by
  rw [reduce] at h
  split at h
  · rename_i hAny
    obtain ⟨l, hl, hMem⟩ := List.any_eq_true.mp hAny
    have hHolds := hForced l (LitSet.mem_toList.mpr (of_decide_eq_true hMem))
    exact Clause.mem_models.mpr ⟨l, hl, hHolds⟩
  · cases h

theorem mem_models_reduce (h : reduce forced c = some d) (hForced : Meets ρ forced.toList) :
    ρ ∈ d.models ↔ ρ ∈ c.models := by
  rw [reduce] at h
  split at h
  · cases h
  · cases h
    rw [Clause.mem_models, Clause.mem_models]
    refine exists_congr fun l => ?_
    rw [List.mem_filter, and_assoc]
    refine and_congr_right fun _ => ⟨And.right, fun hl => ⟨decide_eq_true ?_, hl⟩⟩
    intro hNeg
    have := hForced (-l) (LitSet.mem_toList.mpr hNeg)
    rw [Lit.holds_neg, hl] at this
    cases this

theorem meets_insert {l : Lit} :
    Meets ρ (forced.insert l).toList ↔ l.holds ρ = true ∧ Meets ρ forced.toList := by
  simp [Meets]

theorem notMem_models_of_propagate_eq_none (h : propagate forced f = none)
    (hForced : Meets ρ forced.toList) : ρ ∉ f.models := by
  fun_induction propagate forced f with
  | case1 => cases h
  | case2 forced c f hReduce ih => exact fun hρ => ih h hForced (mem_models_cons.mp hρ).2
  | case3 forced c f hReduce =>
    intro hρ
    have := (mem_models_reduce hReduce hForced).mpr (mem_models_cons.mp hρ).1
    simp [Clause.mem_models] at this
  | case4 forced c f l hReduce ih =>
    intro hρ
    obtain ⟨hc, hf⟩ := mem_models_cons.mp hρ
    have hl : l.holds ρ = true := by
      simpa [Clause.mem_models] using (mem_models_reduce hReduce hForced).mpr hc
    exact ih h (meets_insert.mpr ⟨hl, hForced⟩) hf
  | case5 forced c f d _ _ hReduce ih =>
    exact fun hρ => ih (Option.map_eq_none_iff.mp h) hForced (mem_models_cons.mp hρ).2

/-- A pass of propagation moves content from the formula to the forced literals. -/
theorem mem_models_propagate (h : propagate forced f = some (g, units)) :
    (ρ ∈ g.models ∧ Meets ρ units.toList) ↔ (ρ ∈ f.models ∧ Meets ρ forced.toList) := by
  fun_induction propagate forced f generalizing g with
  | case1 => cases h; rfl
  | case2 forced c f hReduce ih =>
    rw [ih h, mem_models_cons, and_assoc]
    exact ⟨fun h => ⟨mem_models_of_reduce_eq_none hReduce h.2, h⟩, And.right⟩
  | case3 => cases h
  | case4 forced c f l hReduce ih =>
    rw [ih h, meets_insert, mem_models_cons]
    have hUnit : Meets ρ forced.toList → (l.holds ρ = true ↔ ρ ∈ c.models) := by
      intro hForced
      rw [← mem_models_reduce hReduce hForced]
      simp [Clause.mem_models]
    tauto
  | case5 forced c f d _ _ hReduce ih =>
    obtain ⟨⟨g', units'⟩, hRest, hEq⟩ := Option.map_eq_some_iff.mp h
    cases hEq
    rw [mem_models_cons, and_assoc, ih hRest, mem_models_cons]
    have hClause := fun hForced => mem_models_reduce (ρ := ρ) hReduce hForced
    tauto

theorem consistent_insert {l : Lit} (h : Lit.Consistent forced.toList) (hl : -l ∉ forced) :
    Lit.Consistent (forced.insert l).toList := by
  intro k hk hNeg
  rw [LitSet.mem_toList, LitSet.mem_insert] at hk hNeg
  rcases hk with rfl | hk
  · rcases hNeg with hSelf | hNeg
    · have := congrArg Lit.positive hSelf
      simp at this
    · exact hl hNeg
  · rcases hNeg with rfl | hNeg
    · rw [Lit.neg_neg] at hl
      exact hl hk
    · exact h k (LitSet.mem_toList.mpr hk) (LitSet.mem_toList.mpr hNeg)

theorem consistent_of_propagate (h : propagate forced f = some (g, units))
    (hForced : Lit.Consistent forced.toList) : Lit.Consistent units.toList := by
  fun_induction propagate forced f generalizing g with
  | case1 => cases h; exact hForced
  | case2 forced c f _ ih => exact ih h hForced
  | case3 => cases h
  | case4 forced c f l hReduce ih =>
    refine ih h (consistent_insert hForced ?_)
    have hl : l ∈ [l] := List.mem_singleton_self l
    rw [reduce] at hReduce
    split at hReduce
    · cases hReduce
    · rw [← Option.some.inj hReduce, List.mem_filter] at hl
      exact of_decide_eq_true hl.2
  | case5 forced c f d _ _ _ ih =>
    obtain ⟨⟨g', units'⟩, hRest, hEq⟩ := Option.map_eq_some_iff.mp h
    cases hEq
    exact ih hRest hForced

/-- A clause that keeps its length holds no forced literal and no complement of one. -/
theorem unchanged_of_length_reduce (h : reduce forced c = some d) (hLength : c.length ≤ d.length) :
    d = c ∧ ∀ l ∈ c, l ∉ forced ∧ -l ∉ forced := by
  rw [reduce] at h
  split at h
  · cases h
  · rename_i hAny
    cases h
    have hFilter := List.filter_sublist.eq_of_length_le hLength
    refine ⟨hFilter, fun l hl => ⟨?_, ?_⟩⟩
    · intro hMem
      exact hAny (List.any_eq_true.mpr ⟨l, hl, decide_eq_true hMem⟩)
    · rw [← hFilter] at hl
      exact of_decide_eq_true (List.mem_filter.mp hl).2

/-- A pass that removes no occurrence changes nothing, and no forced variable is left. -/
theorem unchanged_of_size_propagate (h : propagate forced f = some (g, units))
    (hSize : f.size ≤ g.size) :
    units = forced ∧ g = f ∧ ∀ l ∈ f.flatten, l ∉ forced ∧ -l ∉ forced := by
  fun_induction propagate forced f generalizing g with
  | case1 => cases h; simp
  | case2 forced c f hReduce _ =>
    have := length_pos_of_reduce_eq_none hReduce
    have := size_propagate_le h
    rw [size_cons] at hSize
    omega
  | case3 => cases h
  | case4 forced c f l hReduce _ =>
    have hLength : 1 ≤ c.length := length_reduce_le hReduce
    have := size_propagate_le h
    rw [size_cons] at hSize
    omega
  | case5 forced c f d _ _ hReduce ih =>
    obtain ⟨⟨g', units'⟩, hRest, hEq⟩ := Option.map_eq_some_iff.mp h
    cases hEq
    have hRestSize := size_propagate_le hRest
    have hLength := length_reduce_le hReduce
    rw [size_cons, size_cons] at hSize
    obtain ⟨rfl, rfl, hNotMem⟩ := ih hRest (by omega)
    obtain ⟨rfl, hClause⟩ := unchanged_of_length_reduce hReduce (by omega)
    refine ⟨rfl, rfl, fun l hl => ?_⟩
    rw [List.flatten_cons, List.mem_append] at hl
    rcases hl with hl | hl
    · exact hClause l hl
    · exact hNotMem l hl

theorem reduce_eq_of_notMem (h : reduce forced c = some d)
    (hOut : (c.any fun l => -l ∈ forced) = false) : d = c := by
  rw [reduce] at h
  split at h
  · cases h
  · cases h
    rw [List.filter_eq_self]
    intro l hl
    simpa using List.any_eq_false.mp hOut l hl

theorem propagate_eq_of_unchanged (h : propagate forced f = some (g, units))
    (hUnchanged : propagates forced f = false) : g = f := by
  fun_induction propagate forced f generalizing g with
  | case1 => cases h; rfl
  | case2 forced c f hReduce _ =>
    rw [propagates, hReduce] at hUnchanged
    cases hUnchanged
  | case3 => cases h
  | case4 forced c f l hReduce _ =>
    rw [propagates, hReduce] at hUnchanged
    cases hUnchanged
  | case5 forced c f d _ _ hReduce ih =>
    obtain ⟨⟨g', units'⟩, hRest, hEq⟩ := Option.map_eq_some_iff.mp h
    cases hEq
    rw [propagates, hReduce] at hUnchanged
    obtain ⟨hClause, hOthers⟩ := Bool.or_eq_false_iff.mp hUnchanged
    rw [ih hRest hOthers, reduce_eq_of_notMem hReduce (Bool.or_eq_false_iff.mp hClause).2]

theorem flatten_propagate_subset (h : propagate forced f = some (g, units)) :
    g.flatten ⊆ f.flatten := by
  fun_induction propagate forced f generalizing g with
  | case1 => cases h; exact List.Subset.refl _
  | case2 forced c f _ ih => exact List.subset_append_of_subset_right c (ih h)
  | case3 => cases h
  | case4 forced c f l _ ih => exact List.subset_append_of_subset_right c (ih h)
  | case5 forced c f d _ _ hReduce ih =>
    obtain ⟨⟨g', units'⟩, hRest, hEq⟩ := Option.map_eq_some_iff.mp h
    cases hEq
    have hClause : d ⊆ c := by
      rw [reduce] at hReduce
      split at hReduce
      · cases hReduce
      · cases hReduce
        exact List.filter_subset_self c
    exact List.append_subset.mpr ⟨List.subset_append_of_subset_left _ hClause,
      List.subset_append_of_subset_right _ (ih hRest)⟩

end Propagation

section Pure

theorem mem_foldl_insert {l : Lit} {ls : List Lit} {s : LitSet} :
    l ∈ ls.foldl LitSet.insert s ↔ l ∈ s ∨ l ∈ ls := by
  induction ls generalizing s with
  | nil => simp
  | cons k ls ih =>
    rw [List.foldl_cons, ih, LitSet.mem_insert, List.mem_cons]
    tauto

theorem mem_occurring {l : Lit} : l ∈ f.occurring ↔ l ∈ f.flatten := by
  have hFormula : ∀ s : LitSet,
      l ∈ f.foldl (fun s c => c.foldl LitSet.insert s) s ↔ l ∈ s ∨ l ∈ f.flatten := by
    induction f with
    | nil => simp
    | cons c f ih =>
      intro s
      rw [List.foldl_cons, ih, mem_foldl_insert, List.flatten_cons, List.mem_append, or_assoc]
  rw [occurring, hFormula]
  simp

/-- The literals that a pass satisfies for being pure. -/
def pures (keep : Std.TreeSet Nat) (f : Cnf) : List Lit :=
  f.flatten.filter (isPure keep f.occurring)

theorem mem_pures {l : Lit} :
    l ∈ pures keep f ↔ l ∈ f.flatten ∧ l.var ∉ keep ∧ -l ∉ f.flatten := by
  rw [pures, List.mem_filter, isPure, Bool.and_eq_true, decide_eq_true_eq, decide_eq_true_eq,
    mem_occurring]

theorem consistent_pures : Lit.Consistent (pures keep f) := by
  intro l hl hNeg
  exact (mem_pures.mp hl).2.2 (mem_pures.mp hNeg).1

theorem models_subset_dropPure : f.models ⊆ (dropPure keep f).models := by
  intro ρ hρ
  rw [mem_models] at hρ ⊢
  exact fun c hc => hρ c (List.mem_filter.mp hc).1

theorem flatten_dropPure_subset : (dropPure keep f).flatten ⊆ f.flatten :=
  fun _ hl => by
    obtain ⟨c, hc, hlc⟩ := List.mem_flatten.mp hl
    exact List.mem_flatten.mpr ⟨c, (List.mem_filter.mp hc).1, hlc⟩

/-- Satisfying the pure literals satisfies what was dropped, and breaks no other clause. -/
theorem mem_models_satisfying_pures (hρ : ρ ∈ (dropPure keep f).models) :
    ρ.satisfying (pures keep f) ∈ f.models := by
  rw [mem_models] at hρ ⊢
  intro c hc
  have hFlatten : ∀ l ∈ c, l ∈ f.flatten := fun l hl => List.mem_flatten.mpr ⟨c, hc, hl⟩
  rw [Clause.mem_models]
  by_cases hAny : c.any (isPure keep f.occurring) = true
  · obtain ⟨l, hl, hPure⟩ := List.any_eq_true.mp hAny
    exact ⟨l, hl, meets_satisfying consistent_pures ρ l
      (List.mem_filter.mpr ⟨hFlatten l hl, hPure⟩)⟩
  · have hKept : c ∈ dropPure keep f := List.mem_filter.mpr ⟨hc, by simpa using hAny⟩
    obtain ⟨l, hl, hHolds⟩ := Clause.mem_models.mp (hρ c hKept)
    refine ⟨l, hl, ?_⟩
    have hNotPure : l ∉ pures keep f := fun h =>
      hAny (List.any_eq_true.mpr ⟨l, hl, (List.mem_filter.mp h).2⟩)
    have hNegNotPure : -l ∉ pures keep f := by
      intro h
      have := (mem_pures.mp h).2.2
      rw [Lit.neg_neg] at this
      exact this (hFlatten l hl)
    rw [holds_satisfying_of_notMem hNotPure hNegNotPure, hHolds]

theorem dropPure_eq_of_unchanged (h : hasPure keep f = false) : dropPure keep f = f := by
  rw [dropPure, List.filter_eq_self]
  intro c hc
  simpa using List.any_eq_false.mp h c hc

/-- The loop goes on exactly when the pass has removed an occurrence of a literal. -/
theorem changed_iff_size_lt (h : propagate forced f = some (g, units)) :
    (propagates forced f || hasPure keep g) = true ↔ (dropPure keep g).size < f.size := by
  refine ⟨size_lt_of_changed h, fun hSize => ?_⟩
  by_contra hUnchanged
  obtain ⟨hPropagates, hPure⟩ := Bool.or_eq_false_iff.mp (Bool.not_eq_true _ ▸ hUnchanged)
  rw [dropPure_eq_of_unchanged hPure, propagate_eq_of_unchanged h hPropagates] at hSize
  exact Nat.lt_irrefl _ hSize

end Pure

/-- The forced literals to keep, by ascending variable. -/
def keptLits (keep : Std.TreeSet Nat) (forced : LitSet) : List Lit :=
  Ascending.ofList (fun a b => decide (a.var < b.var))
    (forced.toList.filter fun l => l.var ∈ keep)

theorem keptUnits_eq : keptUnits keep forced = Cnf.units (keptLits keep forced) := rfl

theorem mem_keptLits (hForced : Lit.Consistent forced.toList) {l : Lit} :
    l ∈ keptLits keep forced ↔ l ∈ forced ∧ l.var ∈ keep := by
  rw [keptLits, Ascending.mem_ofList ?_, List.mem_filter, LitSet.mem_toList, decide_eq_true_eq]
  intro a ha b hb hab hba
  rw [decide_eq_false_iff_not] at hab hba
  exact hForced.eq_of_var (List.mem_filter.mp ha).1 (List.mem_filter.mp hb).1 (by omega)

theorem mem_models_keptUnits (hForced : Lit.Consistent forced.toList) :
    ρ ∈ (keptUnits keep forced).models ↔ ∀ l ∈ forced, l.var ∈ keep → l.holds ρ = true := by
  rw [keptUnits_eq, mem_models_units, Meets]
  simp only [mem_keptLits hForced, and_imp]

theorem mem_models_eliminateFrom (hForced : Lit.Consistent forced.toList) (hρ : ρ ∈ f.models)
    (hMeets : Meets ρ forced.toList) : ρ ∈ (eliminateFrom keep forced f).models := by
  fun_induction eliminateFrom keep forced f with
  | case1 forced f hNone => exact absurd hρ (notMem_models_of_propagate_eq_none hNone hMeets)
  | case2 forced f g units hSome _ ih =>
    obtain ⟨hg, hUnits⟩ := (mem_models_propagate hSome).mpr ⟨hρ, hMeets⟩
    exact ih (consistent_of_propagate hSome hForced) (models_subset_dropPure hg) hUnits
  | case3 forced f g units hSome _ =>
    obtain ⟨hg, hUnits⟩ := (mem_models_propagate hSome).mpr ⟨hρ, hMeets⟩
    refine mem_models_append.mpr ⟨hg, ?_⟩
    rw [mem_models_keptUnits (consistent_of_propagate hSome hForced)]
    exact fun l hl _ => hUnits l (LitSet.mem_toList.mpr hl)

/-- No pass drops a clause for a pure literal whose complement has been forced. -/
def respectsForcedFrom (keep : Std.TreeSet Nat) (forced : LitSet) (f : Cnf) : Bool :=
  match propagate forced f with
  | none => true
  | some (g, units) =>
    (pures keep g).all (fun l => -l ∉ units) &&
      if _h : (dropPure keep g).size < f.size then
        respectsForcedFrom keep units (dropPure keep g)
      else true
termination_by f.size

def respectsForced (keep : List Nat) (f : Cnf) : Bool := respectsForcedFrom (.ofList keep) {} f

theorem respects_of_propagate (h : respectsForcedFrom keep forced f = true)
    (hSome : propagate forced f = some (g, units)) :
    (∀ l ∈ pures keep g, -l ∉ units) ∧ ((dropPure keep g).size < f.size →
      respectsForcedFrom keep units (dropPure keep g) = true) := by
  rw [respectsForcedFrom, hSome] at h
  simp only [Bool.and_eq_true, List.all_eq_true, decide_eq_true_eq] at h
  refine ⟨h.1, fun hSize => ?_⟩
  rw [← h.2, dif_pos hSize]

theorem exists_of_mem_models_dropPure (hRespects : ∀ l ∈ pures keep g, -l ∉ units)
    (hρ : ρ ∈ (dropPure keep g).models) (hMeets : Meets ρ units.toList) :
    ∃ ρ' ∈ g.models, Meets ρ' units.toList ∧ ∀ v ∈ keep, ρ' v = ρ v := by
  refine ⟨_, mem_models_satisfying_pures hρ, fun l hl => ?_, fun v hv => ?_⟩
  · by_cases hPure : l ∈ pures keep g
    · exact meets_satisfying consistent_pures ρ l hPure
    · have hNegPure : -l ∉ pures keep g := by
        intro h
        have := hRespects _ h
        rw [Lit.neg_neg] at this
        exact this (LitSet.mem_toList.mp hl)
      rw [holds_satisfying_of_notMem hPure hNegPure, hMeets l hl]
  · refine satisfying_of_notMem ?_ ρ
    intro hVar
    obtain ⟨l, hl, rfl⟩ := List.mem_map.mp hVar
    exact (mem_pures.mp hl).2.1 hv

theorem exists_of_mem_models_pass (hSome : propagate forced f = some (g, units))
    (hRespects : ∀ l ∈ pures keep g, -l ∉ units) (hρ : ρ ∈ (dropPure keep g).models)
    (hMeets : Meets ρ units.toList) :
    ∃ ρ' ∈ f.models, Meets ρ' forced.toList ∧ ∀ v ∈ keep, ρ' v = ρ v := by
  obtain ⟨σ, hσ, hσMeets, hKeep⟩ := exists_of_mem_models_dropPure hRespects hρ hMeets
  obtain ⟨hModel, hOld⟩ := (mem_models_propagate hSome).mp ⟨hσ, hσMeets⟩
  exact ⟨σ, hModel, hOld, hKeep⟩

/-- Where nothing is left to propagate, the forced variables are free of the formula. -/
theorem exists_of_mem_models_keptUnits (hForced : Lit.Consistent forced.toList)
    (hNotMem : ∀ l ∈ g.flatten, l ∉ forced ∧ -l ∉ forced)
    (hρ : ρ ∈ models (g ++ keptUnits keep forced)) :
    ∃ ρ' ∈ g.models, Meets ρ' forced.toList ∧ ∀ v ∈ keep, ρ' v = ρ v := by
  obtain ⟨hg, hUnits⟩ := mem_models_append.mp hρ
  rw [mem_models_keptUnits hForced] at hUnits
  have hMeets := meets_satisfying hForced ρ
  refine ⟨ρ.satisfying forced.toList, mem_models.mpr fun c hc => ?_, hMeets, fun v hv => ?_⟩
  · obtain ⟨l, hl, hHolds⟩ := Clause.mem_models.mp (mem_models.mp hg c hc)
    obtain ⟨hOut, hNegOut⟩ := hNotMem l (List.mem_flatten.mpr ⟨c, hc, hl⟩)
    refine Clause.mem_models.mpr ⟨l, hl, ?_⟩
    rw [holds_satisfying_of_notMem (by simpa using hOut) (by simpa using hNegOut), hHolds]
  · by_cases hVar : v ∈ forced.toList.map Lit.var
    · obtain ⟨l, hl, rfl⟩ := List.mem_map.mp hVar
      have hOld := hUnits l (LitSet.mem_toList.mp hl) hv
      rw [(Lit.holds_iff _ l).mp (hMeets l hl), (Lit.holds_iff _ l).mp hOld]
    · exact satisfying_of_notMem hVar ρ

/-- A model of what is left extends to the formula: the eliminated variables get the values
of their forced or pure literals, the last pass first. -/
theorem exists_of_mem_models_eliminateFrom (hForced : Lit.Consistent forced.toList)
    (hRespects : respectsForcedFrom keep forced f = true)
    (hρ : ρ ∈ (eliminateFrom keep forced f).models) :
    ∃ ρ' ∈ f.models, Meets ρ' forced.toList ∧ ∀ v ∈ keep, ρ' v = ρ v := by
  fun_induction eliminateFrom keep forced f with
  | case1 => simp [unsat, mem_models, Clause.mem_models] at hρ
  | case2 forced f g units hSome hChanged ih =>
    obtain ⟨hPures, hRest⟩ := respects_of_propagate hRespects hSome
    obtain ⟨σ, hσ, hMeets, hKeep⟩ := ih (consistent_of_propagate hSome hForced)
      (hRest (size_lt_of_changed hSome hChanged)) hρ
    obtain ⟨τ, hτ, hOld, hτKeep⟩ := exists_of_mem_models_pass hSome hPures hσ hMeets
    exact ⟨τ, hτ, hOld, fun v hv => (hτKeep v hv).trans (hKeep v hv)⟩
  | case3 forced f g units hSome hUnchanged =>
    rw [changed_iff_size_lt hSome] at hUnchanged
    have hDrop : (dropPure keep g).size ≤ g.size := size_dropPure_le
    obtain ⟨rfl, rfl, hNotMem⟩ := unchanged_of_size_propagate hSome (by omega)
    exact exists_of_mem_models_keptUnits hForced hNotMem hρ

theorem consistent_empty : Lit.Consistent ({} : LitSet).toList := by
  simp [Lit.Consistent]

theorem models_subset_eliminate (keep : List Nat) (f : Cnf) :
    f.models ⊆ (f.eliminate keep).models :=
  fun _ hρ => mem_models_eliminateFrom consistent_empty hρ (by simp [Meets])

theorem exists_of_mem_models_eliminate {keep : List Nat} (h : respectsForced keep f = true)
    (hρ : ρ ∈ (f.eliminate keep).models) : ∃ ρ' ∈ f.models, ∀ v ∈ keep, ρ' v = ρ v := by
  obtain ⟨σ, hσ, _, hKeep⟩ := exists_of_mem_models_eliminateFrom consistent_empty h hρ
  exact ⟨σ, hσ, fun v hv => hKeep v (by simpa using hv)⟩

/-- Elimination is a projection to the kept variables: the same values of theirs extend to a
model before and after. So it decides satisfiability, and what the formula says of a kept
variable, it still says afterwards. -/
theorem exists_mem_models_eliminate_iff (keep : List Nat) (f : Cnf)
    (h : respectsForced keep f = true) :
    (∀ ρ₀ : Assignment, (∃ ρ ∈ (f.eliminate keep).models, ∀ v ∈ keep, ρ v = ρ₀ v) ↔
      ∃ ρ ∈ f.models, ∀ v ∈ keep, ρ v = ρ₀ v) ∧
    ((f.eliminate keep).models.Nonempty ↔ f.models.Nonempty) ∧
    ∀ l : Lit, l.var ∈ keep → (∀ ρ ∈ f.models, l.holds ρ = true) →
      ∀ ρ ∈ (f.eliminate keep).models, l.holds ρ = true := by
  refine ⟨fun ρ₀ => ⟨?_, ?_⟩, ⟨?_, ?_⟩, ?_⟩
  · rintro ⟨ρ, hρ, hKeep⟩
    obtain ⟨σ, hσ, hAgree⟩ := exists_of_mem_models_eliminate h hρ
    exact ⟨σ, hσ, fun v hv => (hAgree v hv).trans (hKeep v hv)⟩
  · rintro ⟨ρ, hρ, hKeep⟩
    exact ⟨ρ, models_subset_eliminate keep f hρ, hKeep⟩
  · rintro ⟨ρ, hρ⟩
    obtain ⟨σ, hσ, _⟩ := exists_of_mem_models_eliminate h hρ
    exact ⟨σ, hσ⟩
  · exact Set.Nonempty.mono (models_subset_eliminate keep f)
  · intro l hl hForced ρ hρ
    obtain ⟨σ, hσ, hAgree⟩ := exists_of_mem_models_eliminate h hρ
    rw [← Lit.holds_congr (hAgree l.var hl)]
    exact hForced σ hσ

/-- With the unit first, propagation reaches the clauses after it. -/
def earlyUnit : Cnf :=
  [[⟨-2, by decide⟩], [⟨2, by decide⟩, ⟨3, by decide⟩],
    [⟨-3, by decide⟩, ⟨4, by decide⟩, ⟨5, by decide⟩], [⟨5, by decide⟩, ⟨-6, by decide⟩]]

theorem exists_mem_models_earlyUnit :
    respectsForced [3] earlyUnit = true ∧ earlyUnit.eliminate [3] = [[⟨3, by decide⟩]] ∧
      earlyUnit.models.Nonempty ∧ ¬ ∃ ρ ∈ earlyUnit.models, ∀ v ∈ [3], ρ v = false := by
  have hRespects : respectsForced [3] earlyUnit = true := by decide +kernel
  have hLeft : earlyUnit.eliminate [3] = [[⟨3, by decide⟩]] := by decide +kernel
  obtain ⟨hExtends, hSat, _⟩ := exists_mem_models_eliminate_iff [3] earlyUnit hRespects
  refine ⟨hRespects, hLeft, hSat.mp ⟨fun _ => true, ?_⟩, fun h => ?_⟩
  · rw [hLeft, mem_models_iff]
    decide
  · obtain ⟨ρ, hρ, hThree⟩ := (hExtends fun _ => false).mpr h
    rw [hLeft] at hρ
    have hUnit : ρ 3 = true := by
      simpa [mem_models, Clause.mem_models, Lit.holds_iff, Lit.var, Lit.positive] using hρ
    rw [hThree 3 (by simp)] at hUnit
    cases hUnit

/-- With the unit last, the clause before it is dropped for a literal that is forced low. -/
def lateUnit : Cnf := [[⟨2, by decide⟩, ⟨3, by decide⟩], [⟨-2, by decide⟩]]

/-- Then a forced variable is lost although it is kept, and a conflict as well. -/
theorem eliminate_lateUnit :
    lateUnit.eliminate [3] = [] ∧ (∀ ρ ∈ lateUnit.models, ρ 3 = true) ∧
      eliminate [] (lateUnit ++ [[⟨-3, by decide⟩]]) = [] ∧
      ∀ ρ, ρ ∉ models (lateUnit ++ [[⟨-3, by decide⟩]]) := by
  have hThree : ∀ ρ ∈ lateUnit.models, ρ 3 = true := by
    intro ρ hρ
    have hClauses : (ρ 2 = true ∨ ρ 3 = true) ∧ ρ 2 = false := by
      simpa [lateUnit, mem_models, Clause.mem_models, Lit.holds_iff, Lit.var, Lit.positive] using hρ
    simpa [hClauses.2] using hClauses.1
  refine ⟨by decide +kernel, hThree, by decide +kernel, fun ρ hρ => ?_⟩
  obtain ⟨hLate, hNeg⟩ := mem_models_append.mp hρ
  have := hThree ρ hLate
  simp [mem_models, Clause.mem_models, Lit.holds_iff, Lit.var, Lit.positive, this] at hNeg

theorem respectsForcedFrom_of_vars_mem (h : ∀ l ∈ f.flatten, l.var ∈ keep) :
    respectsForcedFrom keep forced f = true := by
  fun_induction respectsForcedFrom keep forced f with
  | case1 => rfl
  | case2 forced f g units hSome ih =>
    have hVars : ∀ l ∈ g.flatten, l.var ∈ keep := fun l hl =>
      h l (flatten_propagate_subset hSome hl)
    have hPures : pures keep g = [] := by
      refine List.eq_nil_iff_forall_not_mem.mpr fun l hl => ?_
      obtain ⟨hMem, hOut, _⟩ := mem_pures.mp hl
      exact hOut (hVars l hMem)
    rw [hPures]
    simp only [List.all_nil, Bool.true_and]
    split
    · rename_i hSize
      exact ih hSize fun l hl => hVars l (flatten_dropPure_subset hl)
    · rfl

/-- A formula whose variables are all kept has no pure literal to drop, and keeps its models. -/
theorem models_eliminate_of_vars_mem {keep : List Nat} (h : ∀ l ∈ f.flatten, l.var ∈ keep) :
    (f.eliminate keep).models = f.models := by
  refine Set.Subset.antisymm (fun ρ hρ => ?_) (models_subset_eliminate keep f)
  have hRespects : respectsForced keep f = true :=
    respectsForcedFrom_of_vars_mem fun l hl => by simpa using h l hl
  obtain ⟨σ, hσ, hAgree⟩ := exists_of_mem_models_eliminate hRespects hρ
  refine (mem_models_congr fun c hc l hl => ?_).mp hσ
  exact hAgree l.var (h l (List.mem_flatten.mpr ⟨c, hc, hl⟩))

end Cnf

end SoftError

import SoftError.Proofs.Formula.Elimination
import SoftError.Proofs.Formula.Substitution

/-!
# The normal form of elimination

A pass of elimination removes occurrences of literals, or it changes nothing at all. So the loop
ends, in a conflict or in a state that one more pass does not change, and these states can be told
without the pass: the clauses are long, mention no forced variable, and have every variable that is
not kept in both polarities. Starting again from what is left, the first pass reads the unit
clauses back as forced literals, and nothing else happens.
-/

namespace SoftError.Cnf

variable {keep : List Nat} {forced units : LitSet} {c d : Clause} {f g : Cnf} {ρ : Assignment}

/-- Propagates once and satisfies the pure literals of what is left; `none` on a conflict. -/
def pass (keep : List Nat) (s : LitSet × Cnf) : Option (LitSet × Cnf) :=
  (propagate s.1 s.2).map fun x => (x.2, dropPure (.ofList keep) x.1)

def passes (keep : List Nat) : Nat → LitSet × Cnf → Option (LitSet × Cnf)
  | 0, s => some s
  | n + 1, s => (pass keep s).bind (passes keep n)

/-- Nothing is left to be done. -/
structure IsNormal (keep : List Nat) (forced : LitSet) (g : Cnf) : Prop where
  two_le_length : ∀ c ∈ g, 2 ≤ c.length
  unmentioned : ∀ l ∈ forced, g.mentions l.var = false
  mixed : ∀ l ∈ g.flatten, l.var ∉ keep → -l ∈ g.flatten

theorem unmentioned_iff :
    (∀ l ∈ forced, g.mentions l.var = false) ↔ ∀ l ∈ g.flatten, l ∉ forced ∧ -l ∉ forced := by
  simp only [← Bool.not_eq_true, mentions_iff, List.mem_map, not_exists, not_and]
  constructor
  · intro h l hl
    exact ⟨fun hMem => h l hMem l hl rfl, fun hMem => h (-l) hMem l hl (Lit.var_neg l).symm⟩
  · rintro h k hk l hl hVar
    obtain ⟨hOut, hNegOut⟩ := h l hl
    rcases Lit.eq_or_eq_neg_of_var hVar with rfl | rfl
    · exact hOut hk
    · exact hNegOut (by rwa [Lit.neg_neg])

section Stable

theorem reduce_eq_self (h : ∀ l ∈ c, l ∉ forced ∧ -l ∉ forced) : reduce forced c = some c := by
  have hAny : ¬ (c.any fun l => l ∈ forced) = true := by
    simpa using fun l hl => (h l hl).1
  rw [reduce, if_neg hAny, List.filter_eq_self.mpr fun l hl => decide_eq_true (h l hl).2]

/-- Long clauses without forced variables are passed by. -/
theorem propagate_append (hLong : ∀ c ∈ g, 2 ≤ c.length)
    (hOut : ∀ l ∈ g.flatten, l ∉ forced ∧ -l ∉ forced) (f : Cnf) :
    propagate forced (g ++ f) = (propagate forced f).map fun x => (g ++ x.1, x.2) := by
  induction g with
  | nil => simp
  | cons c g ih =>
    obtain ⟨hc, hg⟩ := List.forall_mem_cons.mp hLong
    rw [List.flatten_cons, List.forall_mem_append] at hOut
    rw [List.cons_append, propagate, reduce_eq_self hOut.1, ih hg hOut.2]
    match c, hc with
    | _ :: _ :: _, _ => simp [Option.map_map, Function.comp_def]

theorem dropPure_eq_self (h : ∀ l ∈ g.flatten, l.var ∉ keep → -l ∈ g.flatten) :
    dropPure (.ofList keep) g = g := by
  rw [dropPure, List.filter_eq_self]
  intro c hc
  rw [Bool.not_eq_true', List.any_eq_false]
  intro l hl hPure
  have hPures : l ∈ pures (.ofList keep) g :=
    List.mem_filter.mpr ⟨List.mem_flatten.mpr ⟨c, hc, hl⟩, hPure⟩
  obtain ⟨hMem, hOut, hNeg⟩ := mem_pures.mp hPures
  exact hNeg (h l hMem (by simpa using hOut))

theorem IsNormal.pass_eq (h : IsNormal keep forced g) :
    pass keep (forced, g) = some (forced, g) := by
  have hStays : propagate forced g = some (g, forced) := by
    have hAppend := propagate_append h.two_le_length (unmentioned_iff.mp h.unmentioned) []
    simpa [propagate] using hAppend
  rw [pass, hStays, Option.map_some, dropPure_eq_self h.mixed]

end Stable

section Shrinking

theorem two_le_length_of_propagate (h : propagate forced f = some (g, units)) :
    ∀ c ∈ g, 2 ≤ c.length := by
  fun_induction propagate forced f generalizing g with
  | case1 => cases h; simp
  | case2 forced c f _ ih => exact ih h
  | case3 => cases h
  | case4 forced c f l _ ih => exact ih h
  | case5 forced c f d hNil hUnit _ ih =>
    obtain ⟨⟨g', units'⟩, hRest, hEq⟩ := Option.map_eq_some_iff.mp h
    cases hEq
    exact List.forall_mem_cons.mpr ⟨two_le_length_of_ne hNil hUnit, ih hRest⟩

theorem mixed_of_size_dropPure (h : g.size ≤ (dropPure (.ofList keep) g).size) :
    ∀ l ∈ g.flatten, l.var ∉ keep → -l ∈ g.flatten := by
  intro l hl hOut
  by_contra hNeg
  obtain ⟨c, hc, hlc⟩ := List.mem_flatten.mp hl
  have hPure : isPure (.ofList keep) g.occurring l = true := by
    have hMem : l ∈ pures (.ofList keep) g := mem_pures.mpr ⟨hl, by simpa using hOut, hNeg⟩
    exact (List.mem_filter.mp hMem).2
  have hLess : (dropPure (.ofList keep) g).size < g.size := by
    refine size_filter_lt hc ?_ (List.ne_nil_of_mem hlc)
    rw [Bool.not_eq_false', List.any_eq_true]
    exact ⟨l, hlc, hPure⟩
  omega

theorem isNormal_of_size_pass (h : pass keep (forced, f) = some (units, g))
    (hSize : f.size ≤ g.size) : units = forced ∧ g = f ∧ IsNormal keep forced f := by
  obtain ⟨⟨g', units'⟩, hPropagate, hEq⟩ := Option.map_eq_some_iff.mp h
  cases hEq
  dsimp only at hPropagate hSize
  have hDrop : (dropPure (.ofList keep) g').size ≤ g'.size := size_dropPure_le
  have hLong := two_le_length_of_propagate hPropagate
  obtain ⟨hUnits, rfl, hOut⟩ := unchanged_of_size_propagate hPropagate (by omega)
  have hMixed := mixed_of_size_dropPure hSize
  exact ⟨hUnits, dropPure_eq_self hMixed, hLong, unmentioned_iff.mpr hOut, hMixed⟩

end Shrinking

section Loop

theorem eliminateFrom_of_pass_eq_none (h : pass keep (forced, f) = none) :
    eliminateFrom (.ofList keep) forced f = unsat := by
  rw [eliminateFrom, Option.map_eq_none_iff.mp h]

theorem eliminateFrom_of_pass (h : pass keep (forced, f) = some (units, g)) :
    eliminateFrom (.ofList keep) forced f =
      if g.size < f.size then eliminateFrom (.ofList keep) units g
      else g ++ keptUnits (.ofList keep) units := by
  obtain ⟨⟨g', units'⟩, hPropagate, hEq⟩ := Option.map_eq_some_iff.mp h
  cases hEq
  dsimp only at hPropagate
  rw [eliminateFrom, hPropagate]
  dsimp only
  split
  · rename_i hChanged
    rw [if_pos (size_lt_of_changed hPropagate hChanged)]
  · rename_i hUnchanged
    rw [if_neg (mt (changed_iff_size_lt hPropagate).mpr hUnchanged)]
    rw [Bool.or_eq_true, not_or, Bool.not_eq_true, Bool.not_eq_true] at hUnchanged
    rw [dropPure_eq_of_unchanged hUnchanged.2]

theorem consistent_of_pass (h : pass keep (forced, f) = some (units, g))
    (hForced : Lit.Consistent forced.toList) : Lit.Consistent units.toList := by
  obtain ⟨⟨g', units'⟩, hPropagate, hEq⟩ := Option.map_eq_some_iff.mp h
  cases hEq
  exact consistent_of_propagate hPropagate hForced

/-- Each pass but the last removes an occurrence, so that their number is bounded. -/
theorem exists_passes (keep : List Nat) (f : Cnf) (hForced : Lit.Consistent forced.toList) :
    ∃ n ≤ f.size, ∃ units g, passes keep n (forced, f) = some (units, g) ∧
      Lit.Consistent units.toList ∧
      (pass keep (units, g) = none ∧ eliminateFrom (.ofList keep) forced f = unsat ∨
        IsNormal keep units g ∧ eliminateFrom (.ofList keep) forced f =
          g ++ Cnf.units (keptLits (.ofList keep) units)) := by
  induction hn : f.size using Nat.strongRecOn generalizing forced f with
  | ind n ih =>
    subst hn
    cases hPass : pass keep (forced, f) with
    | none =>
      exact ⟨0, Nat.zero_le _, forced, f, rfl, hForced,
        .inl ⟨hPass, eliminateFrom_of_pass_eq_none hPass⟩⟩
    | some next =>
      obtain ⟨units, g⟩ := next
      rw [eliminateFrom_of_pass hPass]
      split
      · rename_i hLess
        obtain ⟨n, hn, hEnd⟩ := ih g.size hLess g (consistent_of_pass hPass hForced) rfl
        refine ⟨n + 1, by omega, ?_⟩
        rw [passes, hPass]
        exact hEnd
      · rename_i hSize
        obtain ⟨rfl, rfl, hNormal⟩ := isNormal_of_size_pass hPass (by omega)
        exact ⟨0, Nat.zero_le _, units, g, rfl, hForced, .inr ⟨hNormal, rfl⟩⟩

end Loop

section Again

theorem propagate_units {ls : List Lit} (hVars : ls.Pairwise fun k l => k.var < l.var)
    (hOut : ∀ l ∈ ls, l ∉ forced ∧ -l ∉ forced) :
    propagate forced (Cnf.units ls) = some ([], ls.foldl LitSet.insert forced) := by
  induction ls generalizing forced with
  | nil => rfl
  | cons l ls ih =>
    obtain ⟨hFirst, hVars⟩ := List.pairwise_cons.mp hVars
    obtain ⟨hl, hOut⟩ := List.forall_mem_cons.mp hOut
    rw [Cnf.units, List.map_cons, propagate, reduce_eq_self (by simpa using hl)]
    refine ih hVars fun k hk => ?_
    have hLess := hFirst k hk
    constructor
    · rw [LitSet.mem_insert, not_or]
      refine ⟨?_, (hOut k hk).1⟩
      rintro rfl
      omega
    · rw [LitSet.mem_insert, not_or]
      refine ⟨?_, (hOut k hk).2⟩
      rintro rfl
      rw [Lit.var_neg] at hLess
      omega

theorem pairwise_keptLits (keep : Std.TreeSet Nat) (forced : LitSet) :
    (keptLits keep forced).Pairwise fun k l => k.var < l.var := by
  refine (Ascending.pairwise_ofList ?_ _).imp of_decide_eq_true
  intro a b c hab hbc
  rw [decide_eq_true_eq] at hab hbc ⊢
  omega

theorem keptLits_congr {keep : Std.TreeSet Nat} (hForced : Lit.Consistent forced.toList)
    (hUnits : Lit.Consistent units.toList)
    (h : ∀ l : Lit, l.var ∈ keep → (l ∈ units ↔ l ∈ forced)) :
    keptLits keep units = keptLits keep forced := by
  refine Ascending.eq_of_mem_iff (fun _ _ => Nat.lt_asymm) (pairwise_keptLits keep units)
    (pairwise_keptLits keep forced) fun l => ?_
  rw [mem_keptLits hUnits, mem_keptLits hForced]
  exact and_congr_left (h l)

/-- The unit clauses are read back as forced literals, and then nothing changes. -/
theorem IsNormal.eliminate_eq (h : IsNormal keep forced g)
    (hForced : Lit.Consistent forced.toList) :
    eliminate keep (g ++ Cnf.units (keptLits (.ofList keep) forced)) =
      g ++ Cnf.units (keptLits (.ofList keep) forced) := by
  let again := (keptLits (.ofList keep) forced).foldl LitSet.insert {}
  have hAgain : ∀ l, l ∈ again ↔ l ∈ forced ∧ l.var ∈ keep := by
    intro l
    rw [mem_foldl_insert, mem_keptLits hForced]
    simp
  have hConsistent : Lit.Consistent again.toList := by
    intro l hl hNeg
    rw [LitSet.mem_toList, hAgain] at hl hNeg
    exact hForced l (LitSet.mem_toList.mpr hl.1) (LitSet.mem_toList.mpr hNeg.1)
  have hNormal : IsNormal keep again g :=
    ⟨h.two_le_length, fun l hl => h.unmentioned l ((hAgain l).mp hl).1, h.mixed⟩
  have hKept : keptLits (.ofList keep) again = keptLits (.ofList keep) forced := by
    refine keptLits_congr hForced hConsistent fun l hl => ?_
    rw [hAgain]
    exact and_iff_left (by simpa using hl)
  have hPass : pass keep ({}, g ++ Cnf.units (keptLits (.ofList keep) forced)) =
      some (again, g) := by
    rw [pass, propagate_append h.two_le_length (by simp),
      propagate_units (pairwise_keptLits _ _) (by simp), Option.map_some, Option.map_some,
      List.append_nil, dropPure_eq_self h.mixed]
  rw [eliminate, eliminateFrom_of_pass hPass, eliminateFrom_of_pass hNormal.pass_eq,
    if_neg (Nat.lt_irrefl _), ite_self, keptUnits_eq, hKept]

end Again

/-- Elimination comes to an end, in a conflict or in a normal form that it does not change any
more. No model is lost, so that only a formula without models ends in a conflict. -/
theorem eliminate_ends_normal (keep : List Nat) (f : Cnf) :
    (∃ n ≤ f.size, ∃ forced g, passes keep n ({}, f) = some (forced, g) ∧
      (pass keep (forced, g) = none ∧ f.eliminate keep = unsat ∨
        pass keep (forced, g) = some (forced, g) ∧ IsNormal keep forced g ∧
          ∃ ls : List Lit, f.eliminate keep = g ++ Cnf.units ls ∧
            ls.Pairwise (fun k l => k.var < l.var) ∧
            ∀ l, l ∈ ls ↔ l ∈ forced ∧ l.var ∈ keep)) ∧
      (f.eliminate keep).eliminate keep = f.eliminate keep ∧
      (∀ ρ, f.holds ρ = true → (f.eliminate keep).holds ρ = true) ∧
      (f.eliminate keep = unsat → ∀ ρ, f.holds ρ = false) := by
  have hModels : ∀ ρ, f.holds ρ = true → (f.eliminate keep).holds ρ = true :=
    fun ρ hρ => models_subset_eliminate keep f hρ
  obtain ⟨n, hn, forced, g, hPasses, hForced, hEnd⟩ := exists_passes keep f consistent_empty
  rw [← eliminate] at hEnd
  refine ⟨⟨n, hn, forced, g, hPasses, hEnd.imp_right ?_⟩, ?_, hModels, fun hUnsat ρ => ?_⟩
  · rintro ⟨hNormal, hResult⟩
    refine ⟨hNormal.pass_eq, hNormal, _, hResult, pairwise_keptLits _ _, fun l => ?_⟩
    rw [mem_keptLits hForced]
    simp
  · rcases hEnd with ⟨-, hResult⟩ | ⟨hNormal, hResult⟩
    · rw [hResult]
      exact eliminateFrom_of_pass_eq_none rfl
    · rw [hResult]
      exact hNormal.eliminate_eq hForced
  · rw [← Bool.not_eq_true]
    intro hρ
    have := hModels ρ hρ
    rw [hUnsat] at this
    cases this

-- `2` forces the kept variable `3`, whose unit follows the clauses that are left
example : eliminate [3] [[2], [-2, 3], [-3, 4, 5], [-4, -5]] = [[4, 5], [-4, -5], [3]] := by
  decide +kernel

end SoftError.Cnf

import SoftError.Formula.Substitution

/-!
# Satisfiability by search

A literal is assumed and the formula reduced by it, unit clauses first. If that fails and
the literal was a choice, its complement is tried.
-/

namespace SoftError

namespace Cnf

/-- The literal of a unit clause. -/
def unit? : Cnf → Option Lit
  | [] => none
  | [l] :: _ => some l
  | _ :: f => unit? f

/-- The first clause of least length. -/
def shortest (best : Clause) : Cnf → Clause
  | [] => best
  | c :: f => shortest (if c.length < best.length then c else best) f

/-- A literal to assume next, from a shortest clause. -/
def choice? : Cnf → Option Lit
  | [] => none
  | c :: f => (shortest c f).head?

theorem mem_flatten_of_unit? {f : Cnf} {l : Lit} (h : unit? f = some l) : l ∈ f.flatten := by
  fun_induction unit? f <;> simp_all

theorem shortest_mem (best : Clause) (f : Cnf) : shortest best f ∈ best :: f := by
  induction f generalizing best with
  | nil => simp [shortest]
  | cons c f ih =>
    rw [shortest]
    have h := ih (if c.length < best.length then c else best)
    split at h <;> grind

theorem mem_flatten_of_choice? {f : Cnf} {l : Lit} (h : choice? f = some l) : l ∈ f.flatten := by
  cases f with
  | nil => cases h
  | cons c f => exact List.mem_flatten.mpr ⟨_, shortest_mem c f, List.mem_of_mem_head? h⟩

theorem size_condition_le (l : Lit) (f : Cnf) : (condition l f).size ≤ f.size := by
  induction f with
  | nil => exact Nat.le_refl _
  | cons c f ih =>
    rw [condition_cons]
    have := List.length_filter_le (· ≠ -l) c
    split <;> simp only [size_cons] <;> omega

/-- Assuming a literal removes its occurrences and those of its complement. -/
theorem size_condition_lt {l : Lit} {f : Cnf} (h : l ∈ f.flatten ∨ -l ∈ f.flatten) :
    (condition l f).size < f.size := by
  induction f with
  | nil => simp at h
  | cons c f ih =>
    have hle := size_condition_le l f
    rw [condition_cons, size_cons]
    split
    · rename_i hl
      have := List.length_pos_of_mem hl
      omega
    · rename_i hl
      rw [size_cons]
      by_cases hneg : -l ∈ c
      · have : (c.filter (· ≠ -l)).length < c.length :=
          List.length_filter_lt_length_iff_exists.mpr ⟨-l, hneg, by simp⟩
        omega
      · have := List.length_filter_le (· ≠ -l) c
        have := ih (by simpa [hl, hneg] using h)
        omega

/-- The literals that satisfy the formula; `none` if it has no model. -/
def search (f : Cnf) : Option (List Lit) :=
  if [] ∈ f then none
  else
    match _hUnit : unit? f with
    | some l => (search (condition l f)).map (l :: ·)
    | none =>
      match _hChoice : choice? f with
      | none => some []
      | some l =>
        match search (condition l f) with
        | some ls => some (l :: ls)
        | none => (search (condition (-l) f)).map (-l :: ·)
termination_by f.size
decreasing_by
  · exact size_condition_lt (.inl (mem_flatten_of_unit? _hUnit))
  · exact size_condition_lt (.inl (mem_flatten_of_choice? _hChoice))
  · exact size_condition_lt (.inr (by simpa using mem_flatten_of_choice? _hChoice))

end Cnf

namespace Assignment

theorem ofLits_cons_of_ne {l : Lit} {v : Nat} (h : l.var ≠ v) (ls : List Lit) :
    ofLits (l :: ls) v = ofLits ls v := by
  simp [ofLits, List.find?_append, h]

theorem ofLits_cons_self {l : Lit} {ls : List Lit} (h : ∀ k ∈ ls, k.var ≠ l.var) :
    ofLits (l :: ls) l.var = l.positive := by
  have hNone : (ls.reverse.find? fun k => k.var = l.var) = none := by
    simpa using h
  simp [ofLits, List.find?_append, hNone]

end Assignment

namespace Cnf

/-- The literals are over variables of the formula, and they satisfy it. -/
structure Solves (f : Cnf) (ls : List Lit) : Prop where
  occurs : ∀ k ∈ ls, ∃ m ∈ f.flatten, m.var = k.var
  holds : f.holds (Assignment.ofLits ls) = true

theorem Solves.assume {l : Lit} {f : Cnf} {ls : List Lit} (hl : ∃ m ∈ f.flatten, m.var = l.var)
    (h : Solves (condition l f) ls) : Solves f (l :: ls) := by
  have hApart : ∀ k ∈ ls, k.var ≠ l.var := by
    intro k hk
    obtain ⟨m, hm, hVar⟩ := h.occurs k hk
    obtain ⟨c, hc, hmc⟩ := List.mem_flatten.mp hm
    exact hVar ▸ var_ne_of_mem_condition hc hmc
  constructor
  · intro k hk
    rcases List.mem_cons.mp hk with rfl | hk
    · exact hl
    · obtain ⟨m, hm, hVar⟩ := h.occurs k hk
      exact ⟨m, mem_flatten_of_mem_condition hm, hVar⟩
  · have hHolds : l.holds (Assignment.ofLits (l :: ls)) = true :=
      (Lit.holds_iff _ l).mpr (Assignment.ofLits_cons_self hApart)
    rw [← holds_condition hHolds, ← h.holds]
    refine holds_congr fun c hc k hk => ?_
    exact Assignment.ofLits_cons_of_ne (var_ne_of_mem_condition hc hk).symm ls

theorem eq_nil_of_choice? {f : Cnf} (hEmpty : [] ∉ f) (h : choice? f = none) : f = [] := by
  cases f with
  | nil => rfl
  | cons c f =>
    have hNil : shortest c f = [] := List.head?_eq_none_iff.mp h
    exact absurd (hNil ▸ shortest_mem c f) hEmpty

theorem solves_search {f : Cnf} {ls : List Lit} (h : search f = some ls) : Solves f ls := by
  fun_induction search f generalizing ls with
  | case1 => cases h
  | case2 f _ l hUnit ih =>
    obtain ⟨ks, hks, rfl⟩ := Option.map_eq_some_iff.mp h
    exact (ih hks).assume ⟨l, mem_flatten_of_unit? hUnit, rfl⟩
  | case3 f hEmpty _ hChoice =>
    cases h
    rw [eq_nil_of_choice? hEmpty hChoice]
    exact ⟨by simp, rfl⟩
  | case4 f _ _ l hChoice ks hks ih =>
    cases h
    exact (ih hks).assume ⟨l, mem_flatten_of_choice? hChoice, rfl⟩
  | case5 f _ _ l hChoice _ _ ih =>
    obtain ⟨ks, hks, rfl⟩ := Option.map_eq_some_iff.mp h
    exact (ih hks).assume ⟨l, mem_flatten_of_choice? hChoice, (Lit.var_neg l).symm⟩

theorem holds_of_unit? {f : Cnf} {l : Lit} (h : unit? f = some l) {ρ : Assignment}
    (hρ : f.holds ρ = true) : l.holds ρ = true := by
  fun_induction unit? f with
  | case1 => cases h
  | case2 k f =>
    cases h
    simpa [Clause.holds] using holds_iff.mp hρ [l] List.mem_cons_self
  | case3 c f _ ih =>
    exact ih h (holds_iff.mpr fun d hd => holds_iff.mp hρ d (List.mem_cons_of_mem c hd))

theorem holds_eq_false_of_search {f : Cnf} (h : search f = none) (ρ : Assignment) :
    f.holds ρ = false := by
  rw [← Bool.not_eq_true]
  intro hρ
  fun_induction search f with
  | case1 f hEmpty => cases holds_iff.mp hρ [] hEmpty
  | case2 f _ l hUnit ih =>
    exact ih (Option.map_eq_none_iff.mp h) ((holds_condition (holds_of_unit? hUnit hρ) f).trans hρ)
  | case3 => cases h
  | case4 => cases h
  | case5 f _ _ l _ hNone ihPositive ihNegative =>
    cases hl : l.holds ρ with
    | true => exact ihPositive hNone ((holds_condition hl f).trans hρ)
    | false =>
      have hNeg : (-l).holds ρ = true := by rw [Lit.holds_neg, hl]; rfl
      exact ihNegative (Option.map_eq_none_iff.mp h) ((holds_condition hNeg f).trans hρ)

end Cnf

end SoftError

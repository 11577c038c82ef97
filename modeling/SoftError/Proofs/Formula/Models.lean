import Mathlib.Data.Set.Basic
import SoftError.Decision.Refinement
import SoftError.Decision.Search
import SoftError.Formula.Model
import SoftError.Formula.Resolution

/-!
# Models of formulas

Formulas are compared through the sets of assignments that satisfy them. Constants have
their value in the assignments that pin variable `1` to false, and there a clause means the
same without its constants. A model read off an assignment agrees with it on the variables
of interest.
-/

namespace SoftError

namespace Lit

@[simp]
theorem var_withSign (l : Lit) (b : Bool) : (l.withSign b).var = l.var := by
  rw [withSign]
  split <;> simp

@[simp]
theorem positive_withSign (l : Lit) (b : Bool) : (l.withSign b).positive = b := by
  rw [withSign]
  split
  · rename_i h
    exact beq_iff_eq.mp h
  · rename_i h
    rw [positive_neg]
    cases hSign : l.positive <;> cases b <;> simp_all

theorem holds_ofVar (ρ : Assignment) (v : Nat) (h : v ≠ 0) : (ofVar v h).holds ρ = ρ v := by
  have hPositive : (ofVar v h).positive = true := by
    rw [positive, decide_eq_true_eq]
    exact Int.natCast_pos.mpr (Nat.pos_of_ne_zero h)
  rw [holds, eval, hPositive]
  rfl

theorem var_ofVar (v : Nat) (h : v ≠ 0) : (ofVar v h).var = v := by
  simp [var, ofVar]

theorem var_pos (l : Lit) : 0 < l.var := Int.natAbs_pos.mpr l.ne_zero

@[simp]
theorem var_bot : bot.var = 1 := rfl

@[simp]
theorem var_top : top.var = 1 := rfl

theorem neg_bot : -bot = top := rfl

theorem isConstant_iff (l : Lit) : l.isConstant = true ↔ l = bot ∨ l = top := by
  constructor
  · intro h
    have hVar : l.var = 1 := beq_iff_eq.mp h
    cases hSign : l.positive with
    | true => exact .inl (eq_of_var_of_positive hVar (hSign.trans rfl))
    | false => exact .inr (eq_of_var_of_positive hVar (hSign.trans rfl))
  · rintro (rfl | rfl) <;> rfl

end Lit

/-- The assignments in which constants have their value. -/
def pinned : Set Assignment := {ρ | ρ 1 = false}

section Pinned

variable {ρ : Assignment} (h : ρ ∈ pinned)
include h

theorem holds_bot : Lit.bot.holds ρ = false := h

theorem holds_top : Lit.top.holds ρ = true := by
  rw [← Lit.neg_bot, Lit.holds_neg, holds_bot h]
  rfl

theorem holds_ofBool (b : Bool) : (Lit.ofBool b).holds ρ = b := by
  cases b with
  | false => exact holds_bot h
  | true => exact holds_top h

end Pinned

/-- All the given literals hold. -/
def Meets (ρ : Assignment) (ls : List Lit) : Prop := ∀ l ∈ ls, l.holds ρ = true

theorem meets_append {ρ : Assignment} {ls ks : List Lit} :
    Meets ρ (ls ++ ks) ↔ Meets ρ ls ∧ Meets ρ ks := by
  simp only [Meets, List.forall_mem_append]

theorem Meets.sublist {ρ : Assignment} {ls ms : List Lit} (h : Meets ρ ms) (hSub : ls.Sublist ms) :
    Meets ρ ls :=
  fun l hl => h l (hSub.subset hl)

theorem meets_singleton {ρ : Assignment} {l : Lit} : Meets ρ [l] ↔ l.holds ρ = true := by
  simp [Meets]

namespace Clause

def models (c : Clause) : Set Assignment := {ρ | c.holds ρ = true}

theorem mem_models {ρ : Assignment} {c : Clause} :
    ρ ∈ c.models ↔ ∃ l ∈ c, l.holds ρ = true := holds_iff

theorem models_top : models [Lit.top] = pinned := by
  ext ρ
  rw [mem_models, ← Lit.neg_bot]
  simp only [List.mem_singleton, exists_eq_left, Lit.holds_neg, Bool.not_eq_true']
  exact Iff.rfl

theorem mem_models_append {ρ : Assignment} {c d : Clause} :
    ρ ∈ models (c ++ d) ↔ ρ ∈ c.models ∨ ρ ∈ d.models := by
  simp only [mem_models, List.mem_append]
  grind

/-- Folding constants away does not change a clause. -/
theorem mem_models_fold {ρ : Assignment} (hρ : ρ ∈ pinned) (c : Clause) :
    (∀ d, c.fold = some d → ρ ∈ d.models) ↔ ρ ∈ c.models := by
  rw [fold, mem_models]
  split
  · rename_i hTop
    constructor
    · intro _
      exact ⟨_, hTop, holds_top hρ⟩
    · intro _ d hd
      cases hd
  · constructor
    · intro h
      obtain ⟨l, hl, hHolds⟩ := mem_models.mp (h _ rfl)
      exact ⟨l, (List.mem_filter.mp hl).1, hHolds⟩
    · rintro ⟨l, hl, hHolds⟩ d hd
      cases hd
      refine mem_models.mpr ⟨l, List.mem_filter.mpr ⟨hl, ?_⟩, hHolds⟩
      rw [decide_eq_true_eq]
      rintro rfl
      rw [holds_bot hρ] at hHolds
      cases hHolds

theorem mem_models_congr {ρ ρ' : Assignment} {c : Clause} (h : ∀ l ∈ c, ρ l.var = ρ' l.var) :
    ρ ∈ c.models ↔ ρ' ∈ c.models := by
  rw [mem_models, mem_models]
  refine exists_congr fun l => and_congr_right fun hl => ?_
  rw [Lit.holds_congr (h l hl)]

theorem mem_models_negate {ρ : Assignment} {ls : List Lit} :
    ρ ∈ models (negate ls) ↔ ¬ Meets ρ ls := by
  rw [mem_models, Meets]
  simp [negate]

end Clause

namespace Cnf

def models (f : Cnf) : Set Assignment := {ρ | f.holds ρ = true}

theorem mem_models_iff {ρ : Assignment} {f : Cnf} : ρ ∈ f.models ↔ f.holds ρ = true := Iff.rfl

theorem mem_models {ρ : Assignment} {f : Cnf} : ρ ∈ f.models ↔ ∀ c ∈ f, ρ ∈ c.models := by
  simp [models, holds, Clause.models]

theorem mem_models_append {ρ : Assignment} {f g : Cnf} :
    ρ ∈ models (f ++ g) ↔ ρ ∈ f.models ∧ ρ ∈ g.models := by
  simp only [mem_models, List.forall_mem_append]

theorem mem_models_cons {ρ : Assignment} {c : Clause} {f : Cnf} :
    ρ ∈ models (c :: f) ↔ ρ ∈ c.models ∧ ρ ∈ f.models := by
  simp only [mem_models, List.forall_mem_cons]

theorem mem_models_fold {ρ : Assignment} (hρ : ρ ∈ pinned) (c : Clause) :
    ρ ∈ models c.fold.toList ↔ ρ ∈ c.models := by
  rw [← Clause.mem_models_fold hρ, mem_models]
  simp only [Option.mem_toList]

theorem mem_models_congr {ρ ρ' : Assignment} {f : Cnf}
    (h : ∀ c ∈ f, ∀ l ∈ c, ρ l.var = ρ' l.var) : ρ ∈ f.models ↔ ρ' ∈ f.models := by
  rw [mem_models_iff, mem_models_iff, holds_congr h]

/-- What a literal says can be assumed where it holds. -/
theorem mem_models_condition {ρ : Assignment} {l : Lit} (hl : l.holds ρ = true) (f : Cnf) :
    ρ ∈ (condition l f).models ↔ ρ ∈ f.models := by
  rw [mem_models_iff, mem_models_iff, holds_condition hl]

theorem mem_models_units {ρ : Assignment} {ls : List Lit} :
    ρ ∈ models (units ls) ↔ Meets ρ ls := by
  simp [mem_models, units, Clause.mem_models, Meets]

end Cnf

/-- A model has the values of its assignment on the variables of interest. -/
theorem value_modelLits {ρ : Assignment} (hρ : ρ ∈ pinned) {interest : List Lit} {l : Lit}
    (hl : l.isConstant = true ∨ l.var ∈ interest.map Lit.var) :
    Model.value ⟨modelLits ρ interest⟩ l = some (l.holds ρ) := by
  rw [Model.value]
  split
  · rename_i hConstant
    rcases (Lit.isConstant_iff l).mp hConstant with rfl | rfl
    · rw [holds_bot hρ]
      rfl
    · rw [holds_top hρ]
      rfl
  · rename_i hConstant
    obtain ⟨k, hk, hVar⟩ := List.mem_map.mp (hl.resolve_left hConstant)
    have hFound : ((modelLits ρ interest).reverse.find? fun k => k.var = l.var).isSome := by
      rw [List.find?_isSome]
      refine ⟨k.withSign (ρ k.var), ?_, by simpa using hVar⟩
      exact List.mem_reverse.mpr (List.mem_map_of_mem (f := fun l => l.withSign (ρ l.var)) hk)
    obtain ⟨m, hm⟩ := Option.isSome_iff_exists.mp hFound
    have hmVar : m.var = l.var := by simpa using List.find?_some hm
    obtain ⟨j, _, rfl⟩ := List.mem_map.mp (List.mem_reverse.mp (List.mem_of_find?_eq_some hm))
    rw [Lit.var_withSign] at hmVar
    rw [hm, Option.map_some, Lit.positive_withSign, hmVar, Lit.holds]

theorem isTrue_modelLits {ρ : Assignment} (hρ : ρ ∈ pinned) {interest : List Lit} {l : Lit}
    (hl : l.isConstant = true ∨ l.var ∈ interest.map Lit.var) :
    Model.isTrue ⟨modelLits ρ interest⟩ l = l.holds ρ := by
  rw [Model.isTrue, value_modelLits hρ hl]
  simp

end SoftError

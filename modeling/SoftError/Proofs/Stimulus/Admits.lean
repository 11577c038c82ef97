import Mathlib.Data.List.Forall2
import SoftError.Proofs.Formula.Models
import SoftError.Stimulus.Basic

/-!
# What a stimulus stands for

A free input stands for either value. A stimulus admits the input vectors that have its
definite values, and a model that knows the literals of the inputs settles it to one of them.
-/

namespace SoftError

def Level.Admits (v : Level) (b : Bool) : Prop := v = .free ∨ v = .ofBool b

namespace Level

theorem toBool?_ofBool (b : Bool) : (ofBool b).toBool? = some b := by
  cases b <;> rfl

theorem toBool_ofBool (b : Bool) : (ofBool b).toBool = b := by
  cases b <;> rfl

theorem ofBool_ne_free (b : Bool) : ofBool b ≠ free := by
  cases b <;> decide

theorem eq_ofBool_of_toBool? {v : Level} {b : Bool} (h : v.toBool? = some b) : v = ofBool b := by
  cases v <;> cases b <;> simp_all [toBool?, ofBool]

theorem toBool?_eq_none_iff {v : Level} : v.toBool? = none ↔ v = free := by
  cases v <;> simp [toBool?]

end Level

/-- The steps of the inputs are those of the stimulus, with every free input filled in. -/
def AdmitsSteps (steps : List (List Level)) (inputs : List (List Bool)) : Prop :=
  List.Forall₂ (List.Forall₂ Level.Admits) steps inputs

def Stimulus.Admits (s : Stimulus) (inputs : List (List Bool)) : Prop := AdmitsSteps s.steps inputs

theorem Level.admits_toBool (v : Level) : v.Admits v.toBool := by
  cases v with
  | low => exact .inr rfl
  | high => exact .inr rfl
  | free => exact .inl rfl

theorem Level.eq_map_toBool {vs : List Level} {xs : List Bool}
    (h : List.Forall₂ Level.Admits vs xs) (hDefinite : ∀ v ∈ vs, v ≠ .free) :
    xs = vs.map Level.toBool := by
  induction h with
  | nil => rfl
  | cons hv _ ih =>
    obtain ⟨hFree, hDefinite⟩ := List.forall_mem_cons.mp hDefinite
    rw [List.map_cons, ← ih hDefinite, hv.resolve_left hFree, Level.toBool_ofBool]

/-- The definite values of the steps, where a free input reads as low. -/
def readings (steps : List (List Level)) : List (List Bool) :=
  steps.map fun vs => vs.map Level.toBool

theorem length_readings (steps : List (List Level)) : (readings steps).length = steps.length :=
  List.length_map _

/-- One way to fill in the free inputs is to make them low. -/
theorem admitsSteps_readings (steps : List (List Level)) : AdmitsSteps steps (readings steps) := by
  rw [AdmitsSteps, readings, List.forall₂_map_right_iff, List.forall₂_same]
  intro vs _
  rw [List.forall₂_map_right_iff, List.forall₂_same]
  exact fun v _ => v.admits_toBool

namespace AdmitsSteps

variable {steps : List (List Level)} {inputs : List (List Bool)}

theorem take (h : AdmitsSteps steps inputs) (n : Nat) :
    AdmitsSteps (steps.take n) (inputs.take n) :=
  List.forall₂_take n h

theorem snoc (h : AdmitsSteps steps inputs) {step : List Level} {xs : List Bool}
    (hStep : List.Forall₂ Level.Admits step xs) : AdmitsSteps (steps ++ [step]) (inputs ++ [xs]) :=
  List.rel_append h (.cons hStep .nil)

theorem exists_snoc {step : List Level} (h : AdmitsSteps (steps ++ [step]) inputs) :
    ∃ ys xs, inputs = ys ++ [xs] ∧ AdmitsSteps steps ys ∧ List.Forall₂ Level.Admits step xs := by
  induction steps generalizing inputs with
  | nil =>
    obtain ⟨xs, rest, hStep, hRest, rfl⟩ := List.forall₂_cons_left_iff.mp h
    cases hRest
    exact ⟨[], xs, rfl, .nil, hStep⟩
  | cons first steps ih =>
    obtain ⟨xs, rest, hFirst, hRest, rfl⟩ := List.forall₂_cons_left_iff.mp h
    obtain ⟨ys, zs, rfl, hSteps, hStep⟩ := ih hRest
    exact ⟨xs :: ys, zs, rfl, .cons hFirst hSteps, hStep⟩

theorem length_eq (h : AdmitsSteps steps inputs) : steps.length = inputs.length :=
  List.Forall₂.length_eq h

/-- Inputs that a stimulus admits up to some step can be continued to its end. -/
theorem extend {n : Nat} (h : AdmitsSteps (steps.take n) inputs) :
    ∃ ys, AdmitsSteps steps ys ∧ ys.take inputs.length = inputs := by
  induction steps generalizing n inputs with
  | nil =>
    rw [List.take_nil] at h
    cases h
    exact ⟨[], .nil, rfl⟩
  | cons step steps ih =>
    cases n with
    | zero =>
      cases h
      exact ⟨readings (step :: steps), admitsSteps_readings _, rfl⟩
    | succ n =>
      obtain ⟨xs, inputs, hStep, hRest, rfl⟩ := List.forall₂_cons_left_iff.mp h
      obtain ⟨ys, hAdmits, hTake⟩ := ih hRest
      refine ⟨xs :: ys, .cons hStep hAdmits, ?_⟩
      rw [List.length_cons, List.take_succ_cons, hTake]

/-- Without free inputs it is the only way. -/
theorem eq_readings (h : AdmitsSteps steps inputs) (hDefinite : ∀ vs ∈ steps, ∀ v ∈ vs, v ≠ .free) :
    inputs = readings steps := by
  induction h with
  | nil => rfl
  | cons hFirst _ ih =>
    obtain ⟨hHead, hDefinite⟩ := List.forall_mem_cons.mp hDefinite
    rw [readings, List.map_cons, Level.eq_map_toBool hFirst hHead, ih hDefinite]
    rfl

end AdmitsSteps

theorem Stimulus.ne_free_of_hasFree {s : Stimulus} (h : s.hasFree = false) :
    ∀ vs ∈ s.steps, ∀ v ∈ vs, v ≠ .free := by
  rintro vs hvs v hv rfl
  have hTrue : s.hasFree = true :=
    List.any_eq_true.mpr ⟨vs, hvs, List.any_eq_true.mpr ⟨.free, hv, rfl⟩⟩
  rw [h] at hTrue
  cases hTrue

namespace Stimulus

theorem settleStep_eq {m : Model} {lits : List Lit} {step : List Level} {ρ : Assignment}
    (hAdmits : List.Forall₂ Level.Admits step (lits.map (Lit.holds ρ)))
    (hValue : ∀ l ∈ lits, m.value l = some (l.holds ρ)) :
    settleStep m lits step = (lits.map (Lit.holds ρ)).map Level.ofBool := by
  induction lits generalizing step with
  | nil =>
    cases hAdmits
    rfl
  | cons l lits ih =>
    obtain _ | ⟨v, step⟩ := step
    · cases hAdmits
    obtain ⟨hFirst, hAdmits⟩ := List.forall₂_cons.mp hAdmits
    obtain ⟨hl, hValue⟩ := List.forall_mem_cons.mp hValue
    have hHead : (if v = .free then Level.ofBool ((m.value l).getD false) else v)
        = Level.ofBool (l.holds ρ) := by
      split
      · rw [hl]
        rfl
      · rename_i hFree
        exact hFirst.resolve_left hFree
    have hTail := ih hAdmits hValue
    rw [settleStep] at hTail ⊢
    rw [List.mapIdx_cons, List.map_cons, List.map_cons, ← hHead, ← hTail]
    rfl

theorem map_toBool_map_ofBool (xs : List Bool) :
    (xs.map Level.ofBool).map Level.toBool = xs := by
  rw [List.map_map]
  exact (List.map_congr_left fun b _ => Level.toBool_ofBool b).trans (List.map_id xs)

theorem mapIdx_settleStep {m : Model} {lits : List (List Lit)} {steps : List (List Level)}
    {ρ : Assignment} (hAdmits : AdmitsSteps steps (lits.map fun ls => ls.map (Lit.holds ρ)))
    (hValue : ∀ ls ∈ lits, ∀ l ∈ ls, m.value l = some (l.holds ρ)) :
    steps.mapIdx (fun t step => settleStep m (lits[t]?.getD []) step) =
      lits.map fun ls => (ls.map (Lit.holds ρ)).map Level.ofBool := by
  induction lits generalizing steps with
  | nil =>
    cases hAdmits
    rfl
  | cons ls lits ih =>
    obtain _ | ⟨step, steps⟩ := steps
    · cases hAdmits
    obtain ⟨hFirst, hAdmits⟩ := List.forall₂_cons.mp hAdmits
    obtain ⟨hls, hValue⟩ := List.forall_mem_cons.mp hValue
    rw [List.mapIdx_cons, List.map_cons, ← ih hAdmits hValue]
    exact congrArg₂ List.cons (settleStep_eq hFirst hls) rfl

/-- The literals of the inputs, one list for each step, are known to the model. -/
theorem steps_settle {m : Model} {lits : List (List Lit)} {s : Stimulus} {ρ : Assignment}
    (hAdmits : s.Admits (lits.map fun ls => ls.map (Lit.holds ρ)))
    (hValue : ∀ ls ∈ lits, ∀ l ∈ ls, m.value l = some (l.holds ρ)) :
    (s.settle lits m).steps =
      lits.map fun ls => (ls.map (Lit.holds ρ)).map Level.ofBool :=
  mapIdx_settleStep hAdmits hValue

theorem bools_settle {m : Model} {lits : List (List Lit)} {s : Stimulus} {ρ : Assignment}
    (hAdmits : s.Admits (lits.map fun ls => ls.map (Lit.holds ρ)))
    (hValue : ∀ ls ∈ lits, ∀ l ∈ ls, m.value l = some (l.holds ρ)) :
    (s.settle lits m).bools = lits.map fun ls => ls.map (Lit.holds ρ) := by
  rw [bools, steps_settle hAdmits hValue, List.map_map]
  exact List.map_congr_left fun ls _ => map_toBool_map_ofBool _

end Stimulus

end SoftError

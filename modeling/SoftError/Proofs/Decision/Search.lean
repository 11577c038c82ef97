import SoftError.Decision.SearchSession
import SoftError.Proofs.Decision.Session
import SoftError.Proofs.Formula.Substitution

/-!
# The search is exact

Whichever solver they use, the sessions decided by search are exact. The values that the solver
leaves open do not matter, and a model stays one when it is varied at random.
-/

namespace SoftError

namespace Problem

theorem isSome_model?_iff (p : Problem) : p.model?.isSome = true ↔ ∃ ρ, ρ ∈ p.formula.models := by
  cases h : p.model? with
  | none =>
    constructor
    · intro hSome
      cases hSome
    · rintro ⟨ρ, hρ⟩
      rw [Cnf.mem_models_iff, holds_eq_false_of_model? h] at hρ
      cases hρ
  | some ρ => exact ⟨fun _ => ⟨ρ, holds_of_model? h⟩, fun _ => rfl⟩

theorem mem_models_assume {p : Problem} {ls : List Lit} {ρ : Assignment} :
    ρ ∈ (p.assume ls).formula.models ↔ ρ ∈ p.formula.models ∧ Meets ρ ls := by
  rw [formula_assume, Cnf.mem_models_append, Cnf.mem_models_units, and_comm]

theorem satUnder_iff (p : Problem) (ls : List Lit) :
    p.satUnder ls = true ↔ ∃ ρ ∈ p.formula.models, Meets ρ ls := by
  rw [satUnder, isSome_model?_iff]
  exact exists_congr fun ρ => mem_models_assume

end Problem

theorem Solver.mem_models_of_solve {solver : Solver} {p : Problem} {ls : List Lit} {m : Valuation}
    (h : solver.solve p ls = some m) : m.value ∈ p.formula.models ∧ Meets m.value ls := by
  obtain ⟨hFormula, hAssumed⟩ := solver.sound h m.value m.agrees_value
  exact ⟨hFormula, List.all_eq_true.mp hAssumed⟩

theorem Solver.not_meets_of_solve {solver : Solver} {p : Problem} {ls : List Lit}
    (h : solver.solve p ls = none) : ∀ ρ ∈ p.formula.models, ¬ Meets ρ ls := by
  intro ρ hρ hMeets
  have hFalse := solver.complete h ρ hρ
  rw [List.all_eq_true.mpr hMeets] at hFalse
  cases hFalse

/-- Whether a problem can be satisfied does not depend on the solver. -/
theorem Solver.sat_iff (solver : Solver) (p : Problem) (ls : List Lit) :
    solver.sat p ls = true ↔ ∃ ρ ∈ p.formula.models, Meets ρ ls := by
  rw [sat]
  cases h : solver.solve p ls with
  | none =>
    constructor
    · intro hSome
      cases hSome
    · rintro ⟨ρ, hρ, hMeets⟩
      exact absurd hMeets (not_meets_of_solve h ρ hρ)
  | some m => exact ⟨fun _ => ⟨m.value, mem_models_of_solve h⟩, fun _ => rfl⟩

namespace SearchSession

theorem isRight_decideUnder (p : Problem) (core more interest : List Lit) (s : SearchSession) :
    (decideUnder p core more interest s).1.IsRight p.formula.models (core ++ more) interest := by
  rw [decideUnder]
  split
  · rename_i m hSolve
    have hModel := Solver.mem_models_of_solve hSolve
    split
    · have hSat (ls : List Lit) (h : s.solver.sat p (core ++ more ++ ls) = true) :
          ∃ ρ ∈ {ρ | ρ ∈ p.formula.models ∧ Meets ρ (core ++ more)}, Meets ρ ls := by
        obtain ⟨ρ', hρ', hMeets'⟩ := (s.solver.sat_iff p _).mp h
        rw [meets_append] at hMeets'
        exact ⟨ρ', ⟨hρ', hMeets'.1⟩, hMeets'.2⟩
      obtain ⟨ρ', ⟨hρ', hMeets'⟩, hEq⟩ := randomizeModel_modelLits hSat hModel interest s.coins
      exact ⟨ρ', hρ', hMeets', hEq⟩
    · exact ⟨m.value, hModel.1, hModel.2, rfl⟩
  · rename_i hNone
    split <;> exact Solver.not_meets_of_solve hNone

/-- Deciding uses up coin tosses only. -/
theorem exists_coins_decideUnder (p : Problem) (core more interest : List Lit)
    (s : SearchSession) :
    ∃ coins, (decideUnder p core more interest s).2 = { s with coins } := by
  rw [decideUnder]
  split <;> split <;> exact ⟨_, rfl⟩

variable {s s' : SearchSession} {p : Problem}

theorem returns_top (h : Deciding.Returns top s p s') :
    s' = s ∧ ∃ f rest, s.frames = f :: rest ∧ f.problem = p := by
  obtain ⟨_, t, hGet, hRest⟩ := Deciding.returns_bind.mp h
  obtain ⟨rfl, rfl⟩ := Deciding.returns_get.mp hGet
  cases hFrames : t.frames with
  | nil =>
    simp only [hFrames] at hRest
    exact absurd hRest Deciding.not_returns_throw
  | cons f rest =>
    simp only [hFrames] at hRest
    obtain ⟨rfl, rfl⟩ := Deciding.returns_pure.mp hRest
    exact ⟨rfl, f, rest, rfl, rfl⟩

theorem returns_top_of {f : Frame s.nested} {fs : List (Frame s.nested)}
    (h : s.frames = f :: fs) : Deciding.Returns top s f.problem s := by
  refine Deciding.returns_get_bind.mpr ?_
  simp [h]

theorem returns_decideUnder {core more interest : List Lit} {a : Answer}
    (h : Deciding.Returns
      (modifyGet (decideUnder p core more interest) : Deciding SearchSession SolverError Answer)
      s a s') :
    (∃ coins, s' = { s with coins }) ∧
      a.IsRight p.formula.models (core ++ more) interest := by
  have hEq := Deciding.returns_modifyGet.mp h
  have hState := exists_coins_decideUnder p core more interest s
  have hRight := isRight_decideUnder p core more interest s
  rw [hEq] at hState hRight
  exact ⟨hState, hRight⟩

def Frame.models {nested : Bool} (f : Frame nested) : Set Assignment := f.problem.formula.models

theorem Frame.models_add {nested : Bool} (c : Clause) (f : Frame nested) :
    (f.add c).models = f.models ∩ c.models := by
  ext ρ
  exact Cnf.mem_models_cons.trans and_comm

/-- The log has what the problem has been told. -/
theorem Frame.models_replay {nested : Bool} (f : Frame nested) (h : nested = true) :
    f.replay.models = f.models := by
  rw [models, models, replay, Problem.formula_ofCnf, f.complete h]

def models (s : SearchSession) : List (Set Assignment) := s.frames.map Frame.models

variable {M : Set Assignment} {rest : List (Set Assignment)} {u : Unit}

theorem models_top (hs : s.models = M :: rest) (h : Deciding.Returns top s p s') :
    s' = s ∧ p.formula.models = M := by
  obtain ⟨rfl, f, fs, hFrames, rfl⟩ := returns_top h
  rw [models, hFrames] at hs
  exact ⟨rfl, (List.cons.inj hs).1⟩

theorem models_addClause {c : Clause} (hs : s.models = M :: rest)
    (h : Deciding.Returns (addClause c) s u s') : s'.models = (M ∩ c.models) :: rest := by
  obtain ⟨_, t, hGet, hRest⟩ := Deciding.returns_bind.mp h
  obtain ⟨rfl, rfl⟩ := Deciding.returns_get.mp hGet
  cases hFrames : t.frames with
  | nil =>
    rw [models, hFrames] at hs
    cases hs
  | cons f fs =>
    simp only [hFrames] at hRest
    rw [models, hFrames] at hs
    cases hs
    cases hRest
    exact congrArg (· :: _) (f.models_add c)

theorem models_push (hs : s.models = M :: rest) (h : Deciding.Returns push s u s') :
    s'.models = M :: M :: rest := by
  obtain ⟨_, t, hGet, hRest⟩ := Deciding.returns_bind.mp h
  obtain ⟨rfl, rfl⟩ := Deciding.returns_get.mp hGet
  cases hFrames : t.frames with
  | nil =>
    rw [models, hFrames] at hs
    cases hs
  | cons f fs =>
    simp only [hFrames] at hRest
    rw [models, hFrames] at hs
    cases hs
    split at hRest
    · rename_i hNested
      cases hRest
      exact congrArg (· :: _) (f.models_replay hNested)
    · exact absurd hRest Deciding.not_returns_throw

theorem models_pop (hs : s.models = M :: rest) (h : Deciding.Returns pop s u s') :
    s'.models = rest := by
  obtain ⟨_, t, hGet, hRest⟩ := Deciding.returns_bind.mp h
  obtain ⟨rfl, rfl⟩ := Deciding.returns_get.mp hGet
  split at hRest
  · exact absurd hRest Deciding.not_returns_throw
  · exact absurd hRest Deciding.not_returns_throw
  · rename_i hFrames
    rw [models, hFrames] at hs
    cases hs
    cases hRest
    rfl

instance : ExactProcedure SearchSession where
  frames := models
  frames_start _ _ _ := by
    refine congrArg (· :: []) (Set.eq_univ_of_forall fun ρ => ?_)
    rfl
  frames_finish _ := rfl
  isSat_returns {f _ _ _} h := by
    have h := Deciding.returns_get_bind.mp h
    obtain ⟨rfl, rfl⟩ := Deciding.returns_pure.mp h
    refine ⟨rfl, ?_⟩
    rw [Solver.sat_iff, Problem.formula_ofCnf]
    exact exists_congr fun ρ => and_iff_left (List.forall_mem_nil _)
  solve_returns {f assumed _ _ _ _} h := by
    obtain ⟨⟨_, rfl⟩, hRight⟩ := returns_decideUnder h
    rw [Problem.formula_ofCnf, List.append_nil] at hRight
    exact ⟨rfl, hRight⟩
  frames_keep h := by
    obtain ⟨_, t, hTop, hModify⟩ := Deciding.returns_bind.mp h
    obtain ⟨rfl, _⟩ := returns_top hTop
    obtain rfl := Deciding.returns_modify.mp hModify
    rfl
  frames_addClause := models_addClause
  check_returns {assumed _ _ _ _ _} hs h := by
    obtain ⟨p, t, hTop, hRest⟩ := Deciding.returns_bind.mp h
    obtain ⟨rfl, rfl⟩ := models_top hs hTop
    have hRest := Deciding.returns_get_bind.mp hRest
    obtain ⟨rfl, rfl⟩ := Deciding.returns_pure.mp hRest
    exact ⟨hs, Solver.sat_iff _ p assumed⟩
  query_returns hs h := by
    obtain ⟨p, t, hTop, hDecide⟩ := Deciding.returns_bind.mp h
    obtain ⟨rfl, rfl⟩ := models_top hs hTop
    obtain ⟨⟨_, rfl⟩, hRight⟩ := returns_decideUnder hDecide
    exact ⟨hs, hRight⟩
  frames_push := models_push
  frames_pop := models_pop

end SearchSession

end SoftError

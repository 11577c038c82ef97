import Mathlib.Data.List.Sublists
import SoftError.Proofs.Decision.ReturnedModels

/-!
# Minimal cores

A core is cut down in one pass. Each literal is tried once, when those before it have been kept
and those after it are still there. A literal that was needed then stays needed when others are
dropped later, as fewer literals contradict less. What is left is a part of the assumptions
from which no occurrence can be dropped, whichever assumptions were blamed to begin with.
-/

namespace SoftError

open Deciding ExactProcedure

section Minimize

variable {contradictory : List Lit → Bool} {kept rest : List Lit}

theorem minimizeFrom_sublist (contradictory : List Lit → Bool) (kept rest : List Lit) :
    (minimizeFrom contradictory kept rest).Sublist (kept ++ rest) := by
  induction rest generalizing kept with
  | nil => simp [minimizeFrom]
  | cons l rest ih =>
    rw [minimizeFrom]
    split
    · exact (ih kept).trans ((List.sublist_cons_self l rest).append_left kept)
    · simpa using ih (kept ++ [l])

theorem contradictory_minimizeFrom (h : contradictory (kept ++ rest) = true) :
    contradictory (minimizeFrom contradictory kept rest) = true := by
  induction rest generalizing kept with
  | nil =>
    rwa [List.append_nil] at h
  | cons l rest ih =>
    rw [minimizeFrom]
    split
    · rename_i hDrop
      exact ih hDrop
    · apply ih
      simpa using h

/-- The invariant of the pass: a literal kept so far is needed beside all that is left. -/
theorem needed_minimizeFrom
    (hMono : ∀ {ls ms : List Lit}, ls.Sublist ms → contradictory ms = false →
      contradictory ls = false)
    (h : ∀ i < kept.length, contradictory ((kept ++ rest).eraseIdx i) = false) :
    ∀ i < (minimizeFrom contradictory kept rest).length,
      contradictory ((minimizeFrom contradictory kept rest).eraseIdx i) = false := by
  induction rest generalizing kept with
  | nil =>
    rwa [List.append_nil] at h
  | cons l rest ih =>
    rw [minimizeFrom]
    split
    · apply ih
      intro i hi
      have hNeeded := h i hi
      rw [List.eraseIdx_append_of_lt_length hi] at hNeeded ⊢
      exact hMono ((List.sublist_cons_self l rest).append_left _) hNeeded
    · rename_i hKeep
      apply ih
      intro i hi
      rw [List.append_assoc, List.singleton_append]
      rw [List.length_append, List.length_singleton] at hi
      rcases Nat.lt_succ_iff_lt_or_eq.mp hi with hi | rfl
      · exact h i hi
      · -- the literal under test: without it the rest is not contradictory
        rw [List.eraseIdx_append_of_length_le le_rfl, Nat.sub_self, List.eraseIdx_cons_zero]
        exact Bool.eq_false_iff.mpr hKeep

end Minimize

/-- A core is a part of the assumptions that contradicts the further ones. Each occurrence of a
literal in it is needed for that. -/
structure IsMinimalCore (M : Set Assignment) (assumed more core : List Lit) : Prop where
  sublist : core.Sublist assumed
  mem_assumed : ∀ l ∈ core, l ∈ assumed
  refuted : ¬ ∃ ρ ∈ M, Meets ρ (core ++ more)
  needed : ∀ i < core.length, ∃ ρ ∈ M, Meets ρ (core.eraseIdx i ++ more)
  eq_nil : (¬ ∃ ρ ∈ M, Meets ρ more) → core = []

/-- The test is exact on the literals beside the further assumptions. -/
theorem isMinimalCore_minimizeCore {M : Set Assignment} {contradictory : List Lit → Bool}
    {assumed more blamed : List Lit}
    (hTest : ∀ ls, contradictory ls = false ↔ ∃ ρ ∈ M, Meets ρ (ls ++ more))
    (hSub : blamed.Sublist assumed) (hUnsat : ¬ ∃ ρ ∈ M, Meets ρ (blamed ++ more)) :
    IsMinimalCore M assumed more (minimizeCore contradictory blamed) := by
  have hMono : ∀ {ls ms : List Lit}, ls.Sublist ms → contradictory ms = false →
      contradictory ls = false := by
    intro ls ms hSub hms
    obtain ⟨ρ, hρ, hMeets⟩ := (hTest ms).mp hms
    exact (hTest ls).mpr ⟨ρ, hρ, hMeets.sublist (hSub.append_right more)⟩
  have hBlamed : contradictory ([] ++ blamed) = true := by
    rw [← hTest, Bool.not_eq_false] at hUnsat
    exact hUnsat
  have hCore := (minimizeFrom_sublist contradictory [] blamed).trans hSub
  have hNeeded : ∀ i < (minimizeCore contradictory blamed).length,
      contradictory ((minimizeCore contradictory blamed).eraseIdx i) = false :=
    needed_minimizeFrom hMono (by simp)
  constructor
  · exact hCore
  · intro l hl
    exact hCore.subset hl
  · rw [← hTest, Bool.not_eq_false]
    exact contradictory_minimizeFrom hBlamed
  · intro i hi
    exact (hTest _).mp (hNeeded i hi)
  · intro hMore
    -- otherwise the first literal could be dropped
    by_contra hne
    obtain ⟨ρ, hρ, hMeets⟩ := (hTest _).mp (hNeeded 0 (List.length_pos_iff.mpr hne))
    exact hMore ⟨ρ, hρ, (meets_append.mp hMeets).2⟩

/-- Every core that a call returns is minimal. A core is returned wherever there is one, at least
as long as all literals fit. -/
structure MinimizesCores {σ : Type} (M : Set Assignment) (fits : Prop) (assumed more : List Lit)
    (call : Deciding σ SolverError Answer) (s : σ) : Prop where
  minimal : ∀ {core s'}, Returns call s (.unsat core) s' → IsMinimalCore M assumed more core
  returns : fits → (¬ ∃ ρ ∈ M, Meets ρ (assumed ++ more)) →
    ∃ core s', Returns call s (.unsat core) s'

theorem MinimizesCores.bind {σ α : Type} {M : Set Assignment} {fits : Prop}
    {assumed more : List Lit} {first : Deciding σ SolverError α}
    {next : α → Deciding σ SolverError Answer} {s : σ} {a : α} (hFirst : Returns first s a s)
    (h : MinimizesCores M fits assumed more (next a) s) :
    MinimizesCores M fits assumed more (first >>= next) s where
  minimal hRun := h.minimal ((returns_bind_of hFirst).mp hRun)
  returns hFits hUnsat := by
    obtain ⟨core, s', hRun⟩ := h.returns hFits hUnsat
    exact ⟨core, s', (returns_bind_of hFirst).mpr hRun⟩

theorem Cnf.refutes_iff {f : Cnf} {ls : List Lit} :
    f.Refutes ls ↔ ¬ ∃ ρ ∈ f.models, Meets ρ ls := by
  simp only [Refutes, not_exists, not_and]
  refine forall_congr' fun ρ => imp_congr_right fun _ => ?_
  rw [← Bool.not_eq_true, List.all_eq_true]
  rfl

namespace SearchSession

variable {s : SearchSession} {p : Problem} {core more : List Lit} (interest : List Lit)

/-- The contradiction is found, and what is blamed for it is cut down. -/
theorem decideUnder_of_unsat (hMinimal : s.minimalCores = true)
    (hUnsat : ¬ ∃ ρ ∈ p.formula.models, Meets ρ (core ++ more)) :
    ∃ c, decideUnder p core more interest s = (.unsat c, s) ∧
      IsMinimalCore p.formula.models core more c := by
  have hNone : s.solver.solve p (core ++ more) = none := by
    rw [← Option.not_isSome_iff_eq_none]
    exact fun hSome => hUnsat ((s.solver.sat_iff p _).mp hSome)
  have hTest (ls : List Lit) : (!s.solver.sat p (ls ++ more)) = false ↔
      ∃ ρ ∈ p.formula.models, Meets ρ (ls ++ more) := by
    rw [Bool.not_eq_false', s.solver.sat_iff]
  have hBlamed := s.blame.refutes (Cnf.refutes_iff.mpr hUnsat)
  refine ⟨_, ?_, isMinimalCore_minimizeCore hTest List.filter_sublist (Cnf.refutes_iff.mp hBlamed)⟩
  rw [decideUnder, hNone]
  exact if_pos hMinimal

variable (p core more) in
theorem minimizesCores_decideUnder (hMinimal : s.minimalCores = true) (fits : Prop) :
    MinimizesCores p.formula.models fits core more
      (modifyGet (decideUnder p core more interest)) s where
  minimal hRun := by
    obtain ⟨-, hRight⟩ := returns_decideUnder hRun
    obtain ⟨c, hDecide, hCore⟩ := decideUnder_of_unsat interest hMinimal
      fun ⟨ρ, hρ, hMeets⟩ => hRight ρ hρ hMeets
    rw [returns_modifyGet, hDecide] at hRun
    cases hRun
    exact hCore
  returns _ hUnsat := by
    obtain ⟨c, hDecide, -⟩ := decideUnder_of_unsat interest hMinimal hUnsat
    exact ⟨c, s, returns_modifyGet.mpr hDecide⟩

theorem minimalCores_decideUnder (p : Problem) (core more : List Lit) (s : SearchSession) :
    (decideUnder p core more interest s).2.minimalCores = s.minimalCores := by
  obtain ⟨coins, hState⟩ := exists_coins_decideUnder p core more interest s
  rw [hState]

theorem minimalCores_perform (op : Operation) (x : SearchSession × ClauseStack) :
    (op.perform x).1.minimalCores = x.1.minimalCores := by
  obtain ⟨⟨nested, fs, ks, random, minimal, coins, blame, solver⟩, m⟩ := x
  cases op with
  | isSat | start | finish => rfl
  | solve f assumed interest => exact minimalCores_decideUnder interest (.ofCnf f) assumed [] _
  | keep | addClause | check => cases fs <;> rfl
  | query core more interest =>
    cases fs with
    | nil => rfl
    | cons f fs => exact minimalCores_decideUnder interest f.problem core more _
  | push => cases fs <;> cases nested <;> rfl
  | pop => rcases fs with _ | ⟨f, _ | ⟨g, fs⟩⟩ <;> rfl

theorem minimalCores_history (ops : List Operation) (x : SearchSession × ClauseStack) :
    (ops.foldl Operation.perform x).1.minimalCores = x.1.minimalCores := by
  induction ops generalizing x with
  | nil => rfl
  | cons op ops ih => exact (ih (op.perform x)).trans (minimalCores_perform op x)

end SearchSession

namespace DiagramSession

variable {s : DiagramSession} {d : Diagram} {core more : List Lit} (interest : List Lit)

theorem decideUnder_of_unsat {dCore dMore : Diagram} (hd : d.Canonical)
    (hMore : cube s.capacity more = .ok dMore) (hCore : cube s.capacity core = .ok dCore)
    (hUnsat : ¬ ∃ ρ ∈ modelsOf d, Meets ρ (core ++ more)) :
    ∃ c, decideUnder d core more interest s = .ok (.unsat c, s) ∧
      IsMinimalCore (modelsOf d) core more c := by
  obtain ⟨hMoreCanonical, hMoreEval⟩ := cube_eq_ok hMore
  obtain ⟨hAll, hEval⟩ := canonical_and_cubes hd hMore hCore
  have hNone : s.chooser.choose? ((d.and dMore).and dCore) = none := by
    rw [Option.eq_none_iff_forall_ne_some]
    intro ρ hSome
    exact hUnsat ⟨ρ, (hEval ρ).mp (s.chooser.sound hAll.ordered hSome)⟩
  have hTest (ls : List Lit) : contradicts (d.and dMore) ls = false ↔
      ∃ ρ ∈ modelsOf d, Meets ρ (ls ++ more) := by
    rw [contradicts_eq_false_iff (hd.and hMoreCanonical)]
    refine exists_congr fun ρ => ?_
    rw [Diagram.eval_and, Bool.and_eq_true, hMoreEval, meets_append, and_assoc,
      and_comm (a := Meets ρ more)]
    rfl
  refine ⟨_, ?_, isMinimalCore_minimizeCore hTest (List.Sublist.refl core) hUnsat⟩
  rw [decideUnder, hMore, hCore]
  simp only [bind, Except.bind, hNone]
  rfl

variable (core more) in
theorem minimizesCores_solveUnder (hd : d.Canonical) :
    MinimizesCores (modelsOf d) (∀ l ∈ core ++ more, l.var ≤ s.capacity) core more
      (solveUnder d core more interest) s where
  minimal hRun := by
    obtain ⟨-, hRight⟩ := returns_solveUnder hd hRun
    have hDecide := returns_solveUnder_iff.mp hRun
    obtain ⟨dMore, hMore, h⟩ := exists_of_bind_eq_ok hDecide
    obtain ⟨dCore, hCore, -⟩ := exists_of_bind_eq_ok h
    obtain ⟨c, hUnsat, hMinimal⟩ := decideUnder_of_unsat interest hd hMore hCore
      fun ⟨ρ, hρ, hMeets⟩ => hRight ρ hρ hMeets
    rw [hDecide] at hUnsat
    cases hUnsat
    exact hMinimal
  returns hFits hUnsat := by
    rw [List.forall_mem_append] at hFits
    obtain ⟨dMore, hMore⟩ := foldlM_literal_eq_ok Diagram.and hFits.2 (.leaf true)
    obtain ⟨dCore, hCore⟩ := foldlM_literal_eq_ok Diagram.and hFits.1 (.leaf true)
    obtain ⟨c, hDecide, -⟩ := decideUnder_of_unsat interest hd hMore hCore hUnsat
    exact ⟨c, s, returns_solveUnder_iff.mpr hDecide⟩

end DiagramSession

section History

variable {σ : Type} [DecisionProcedure σ]

/-- Both kinds of calls now return minimal cores. -/
structure ReturnsMinimalCores (fits : Lit → Prop) (x : σ × ClauseStack) : Prop where
  solve : ∀ (f : Cnf) (assumed interest : List Lit),
    MinimizesCores f.models (∀ l ∈ f.flatten ++ assumed, fits l) assumed []
      (DecisionProcedure.solve f assumed interest) x.1
  query : ∀ {f : Cnf} {fs : List Cnf} (core more interest : List Lit), x.2.frames = f :: fs →
    MinimizesCores f.models (∀ l ∈ core ++ more, fits l) core more
      (DecisionProcedure.query core more interest) x.1

end History

theorem SearchSession.returnsMinimalCores {Ready : Bool → SearchSession → Prop}
    {x : SearchSession × ClauseStack} (hs : Represents Ready x.1 x.2)
    (hMinimal : x.1.minimalCores = true) : ReturnsMinimalCores (fun _ => True) x where
  solve f assumed interest := by
    have hSolve := minimizesCores_decideUnder (.ofCnf f) assumed [] interest hMinimal
      (∀ l ∈ f.flatten ++ assumed, True)
    rwa [Problem.formula_ofCnf] at hSolve
  query {f fs} core more interest hFrames := by
    have hModels := hs.models
    rw [hFrames] at hModels
    obtain ⟨frame, rest, hTop, hModels, -⟩ := List.map_eq_cons_iff.mp hModels
    have hQuery := minimizesCores_decideUnder frame.problem core more interest hMinimal
      (∀ l ∈ core ++ more, True)
    rw [show frame.problem.formula.models = f.models from hModels] at hQuery
    exact hQuery.bind (returns_top_of hTop)

theorem DiagramSession.returnsMinimalCores {capacity : Nat} {x : DiagramSession × ClauseStack}
    (hs : Represents (Ready capacity) x.1 x.2) :
    ReturnsMinimalCores (fun l => l.var ≤ capacity) x where
  solve f assumed interest := by
    refine MinimizesCores.bind (a := x.1) rfl ?_
    cases hFormula : formula x.1.capacity f with
    | error e =>
      constructor
      · intro core s' hRun
        obtain ⟨d, hd, -⟩ := returns_ofExcept_bind.mp hRun
        cases hd
      · intro hFits
        rw [← hs.ready.capacity, List.forall_mem_append] at hFits
        obtain ⟨d, hd⟩ := formula_eq_ok_of_le hFits.1
        rw [hd] at hFormula
        cases hFormula
    | ok d =>
      obtain ⟨hd, hEval⟩ := formula_eq_ok hFormula
      refine MinimizesCores.bind (a := d) rfl ?_
      have hSolve := minimizesCores_solveUnder (s := x.1) assumed [] interest hd
      rw [show modelsOf d = f.models from Set.ext hEval, List.append_nil, hs.ready.capacity]
        at hSolve
      exact ⟨hSolve.minimal, fun hFits => hSolve.returns (List.forall_mem_append.mp hFits).2⟩
  query {f fs} core more interest hFrames := by
    have hModels := hs.models
    rw [hFrames] at hModels
    obtain ⟨d, ds, hTop, hd, -, hM, -⟩ := exists_of_models hModels
    have hQuery := minimizesCores_solveUnder (s := x.1) core more interest hd
    rw [← hM, hs.ready.capacity] at hQuery
    exact hQuery.bind (returns_top_of hTop)

/-- Whatever was done before, the options are, the coins show and the solver finds and blames, a
session that is asked for minimal cores returns minimal cores, and so does one decided by
diagrams. -/
theorem sessions_return_minimal_cores (o : Options) (capacity : Nat) (coins : Coins)
    (blame : Blame) (solver : Solver) (chooser : Diagram.Chooser) (ops : List Operation) :
    ReturnsMinimalCores (fun _ => True) (Operation.history ops
      { SearchSession.ofOptions { o with minimalCores := true } with coins, blame, solver }) ∧
      ReturnsMinimalCores (fun l => l.var ≤ capacity)
        (Operation.history ops { DiagramSession.ofOptions capacity o with coins, chooser }) := by
  constructor
  · have hNew :=
      SearchSession.represents_new { o with minimalCores := true } coins blame solver
    apply SearchSession.returnsMinimalCores (hNew.history SearchSession.steady ops)
    rw [SearchSession.minimalCores_history]
    rfl
  · have hNew := DiagramSession.represents_new capacity o coins chooser
    exact DiagramSession.returnsMinimalCores (hNew.history (DiagramSession.steady capacity) ops)

/-- Blames a literal only if the other assumptions do not suffice. -/
def Blame.sparing (l : Lit) : Blame where
  uses f core more k := k != l || decide (f.SatUnder (core.filter (· != l) ++ more))
  refutes {f core more} h := by
    by_cases hSat : f.SatUnder (core.filter (· != l) ++ more)
    · rwa [List.filter_eq_self.mpr fun k _ => by simp [hSat]]
    · simpa [hSat] using Cnf.refutes_iff.mpr hSat

def sparingSession : SearchSession × ClauseStack :=
  Operation.history [.start [] true, .addClause [-2, -3], .push, .addClause [-4], .pop]
    { SearchSession.ofOptions { minimalCores := true } with
      coins := alternating, blame := .sparing 4 }

/-- Two assumptions are repeated. One of them is not needed, and the other one is needed once. -/
theorem sparingSession_returns_core :
    ∃ s, Returns (DecisionProcedure.query [4, 2, 4, 2] [3] [4]) sparingSession.1
      (.unsat [2]) s := by
  have hTold : sparingSession.2.frames = [[[-2, -3]]] := by decide +kernel
  have hCores := (sessions_return_minimal_cores {} 4 alternating (.sparing 4) .learning .lowFirst _).1.query
    [4, 2, 4, 2] [3] [4] hTold
  have hConflict : ∀ ls, (∃ ρ ∈ Cnf.models [[-2, -3]], Meets ρ (ls ++ [3])) → 2 ∉ ls := by
    rintro ls ⟨ρ, hρ, hMeets⟩ hTwo
    have hHolds : Lit.holds ρ 2 = true ∧ Lit.holds ρ 3 = true :=
      ⟨hMeets 2 (by simp [hTwo]), hMeets 3 (by simp)⟩
    simp [Cnf.mem_models, Clause.mem_models, Lit.holds_neg, hHolds] at hρ
  obtain ⟨core, s, hRun⟩ := hCores.returns (fun _ _ => trivial) fun h =>
    absurd (by decide) (hConflict _ h)
  have hCore := hCores.minimal hRun
  have hAlone : ¬ ∀ l ∈ core ++ [3], l.holds (fun v => v != 2) = true := by
    intro hMeets
    have hModel : Cnf.holds (fun v => v != 2) [[-2, -3]] = true := by decide
    exact hCore.refuted ⟨fun v => v != 2, hModel, hMeets⟩
  have hOnce : ∀ i < core.length, 2 ∉ core.eraseIdx i := fun i hi => hConflict _ (hCore.needed i hi)
  -- of the parts of the assumptions, only one passes both tests
  have hAll : ∀ ls ∈ List.sublists ([4, 2, 4, 2] : List Lit),
      (¬ ∀ l ∈ ls ++ [3], l.holds (fun v => v != 2) = true) →
      (∀ i < ls.length, 2 ∉ ls.eraseIdx i) → ls = [2] := by
    decide
  obtain rfl := hAll core (List.mem_sublists.mpr hCore.sublist) hAlone hOnce
  exact ⟨s, hRun⟩

end SoftError

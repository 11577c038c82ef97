import Mathlib.Data.List.TakeDrop
import SoftError.Decision.DiagramSession
import SoftError.Proofs.Decision.Session
import SoftError.Proofs.Diagram.Reduced

/-!
# The diagrams are exact

The diagram of a clause, a cube or a formula has their models, wherever all of its variables
have a place. As the connectives keep diagrams canonical, the sessions decided by diagrams are
exact.
-/

namespace SoftError.DiagramSession

open Deciding
open Diagram (Canonical canonical_leaf canonical_ofLit canonical_foldl canonical_conjunction)

variable {capacity : Nat} {d e : Diagram} {c : Clause} {f : Cnf} {ls interest : List Lit}
  {ρ : Assignment}

theorem foldlM_literal {op : Diagram → Diagram → Diagram}
    (h : ls.foldlM (fun d l => return op d (← literal capacity l)) e = Except.ok d) :
    (∀ l ∈ ls, l.var ≤ capacity) ∧ d = ls.foldl (fun d l => op d (.ofLit l)) e := by
  induction ls generalizing e with
  | nil =>
    cases h
    exact ⟨List.forall_mem_nil _, rfl⟩
  | cons l ls ih =>
    rw [List.foldlM_cons, literal] at h
    split at h
    · cases h
    · rename_i hVar
      obtain ⟨hVars, hEq⟩ := ih h
      exact ⟨List.forall_mem_cons.mpr ⟨Nat.not_lt.mp hVar, hVars⟩, hEq⟩

theorem clause_eq_ok (h : clause capacity c = .ok d) :
    fits capacity c = true ∧ d.Canonical ∧ ∀ ρ, d.eval ρ = true ↔ ρ ∈ c.models := by
  obtain ⟨hVars, rfl⟩ := foldlM_literal h
  refine ⟨List.all_eq_true.mpr fun l hl => decide_eq_true (hVars l hl),
    canonical_foldl (fun d l _ hd => hd.or (canonical_ofLit l)) (canonical_leaf false), fun ρ => ?_⟩
  have hFold : ∀ (ls : List Lit) (e : Diagram),
      (ls.foldl (fun d l => d.or (.ofLit l)) e).eval ρ = (e.eval ρ || ls.any (Lit.holds ρ)) := by
    intro ls
    induction ls with
    | nil => simp
    | cons l ls ih => simp [ih, Bool.or_assoc]
  rw [hFold]
  exact Iff.rfl

theorem cube_eq_ok (h : cube capacity ls = .ok d) :
    d.Canonical ∧ ∀ ρ, d.eval ρ = true ↔ Meets ρ ls := by
  obtain ⟨_, rfl⟩ := foldlM_literal h
  refine ⟨canonical_foldl (fun d l _ hd => hd.and (canonical_ofLit l)) (canonical_leaf true),
    fun ρ => ?_⟩
  have hFold : ∀ (ls : List Lit) (e : Diagram),
      (ls.foldl (fun d l => d.and (.ofLit l)) e).eval ρ = (e.eval ρ && ls.all (Lit.holds ρ)) := by
    intro ls
    induction ls with
    | nil => simp
    | cons l ls ih => simp [ih, Bool.and_assoc]
  rw [hFold]
  simp [Diagram.eval, Meets]

theorem mapM_clause {ds : List Diagram} (h : f.mapM (clause capacity) = .ok ds) :
    (∀ d ∈ ds, d.Canonical) ∧ ∀ ρ, ds.all (Diagram.eval ρ) = true ↔ ρ ∈ f.models := by
  induction f generalizing ds with
  | nil =>
    cases h
    exact ⟨List.forall_mem_nil _, fun ρ => Iff.rfl⟩
  | cons c f ih =>
    rw [List.mapM_cons] at h
    cases hClause : clause capacity c with
    | error e =>
      rw [hClause] at h
      cases h
    | ok d =>
      cases hRest : f.mapM (clause capacity) with
      | error e =>
        rw [hClause, hRest] at h
        cases h
      | ok ds' =>
        rw [hClause, hRest] at h
        cases h
        obtain ⟨_, hCanonical, hEval⟩ := clause_eq_ok hClause
        obtain ⟨hCanonicals, hEvals⟩ := ih hRest
        refine ⟨List.forall_mem_cons.mpr ⟨hCanonical, hCanonicals⟩, fun ρ => ?_⟩
        rw [List.all_cons, Bool.and_eq_true, hEval, hEvals, Cnf.mem_models_cons]

/-- The clauses that are not looked at come after a contradiction. -/
theorem formula_eq_ok (h : formula capacity f = .ok d) :
    d.Canonical ∧ ∀ ρ, d.eval ρ = true ↔ ρ ∈ f.models := by
  rw [formula, List.span_eq_takeWhile_dropWhile] at h
  obtain ⟨ds, hFirst, h⟩ := exists_of_bind_eq_ok h
  obtain ⟨hCanonical, hEval⟩ := mapM_clause hFirst
  have hConjunction := canonical_conjunction hCanonical
  have hSplit : f = f.takeWhile (fits capacity) ++ f.dropWhile (fits capacity) :=
    List.takeWhile_append_dropWhile.symm
  dsimp only at h
  split at h
  · rename_i hFalse
    cases h
    refine ⟨hConjunction, fun ρ => ⟨fun hρ => ?_, fun hρ => ?_⟩⟩
    · rw [of_decide_eq_true hFalse] at hρ
      cases hρ
    · rw [hSplit, Cnf.mem_models_append] at hρ
      rw [Diagram.eval_conjunction]
      exact (hEval ρ).mpr hρ.1
  · obtain ⟨_, hRest, h⟩ := exists_of_bind_eq_ok h
    cases h
    -- the first clause left would be refused, as it does not fit
    have hNone : f.dropWhile (fits capacity) = [] := by
      cases hDrop : f.dropWhile (fits capacity) with
      | nil => rfl
      | cons c rest =>
        rw [hDrop] at hRest
        obtain ⟨e, hClause, _⟩ := exists_of_bind_eq_ok hRest
        have hFits := List.head_dropWhile_not (fits capacity) (l := f) (by simp [hDrop])
        simp only [hDrop, List.head_cons] at hFits
        rw [(clause_eq_ok hClause).1] at hFits
        cases hFits
    rw [hNone, List.append_nil] at hSplit
    refine ⟨hConjunction, fun ρ => ?_⟩
    rw [Diagram.eval_conjunction, hEval, ← hSplit]

theorem model_eq_ok {m : List Lit} (h : model capacity ρ interest = .ok m) :
    m = modelLits ρ interest := by
  induction interest generalizing m with
  | nil =>
    cases h
    rfl
  | cons l interest ih =>
    rw [model, List.mapM_cons] at h
    obtain ⟨k, hLit, h⟩ := exists_of_bind_eq_ok h
    obtain ⟨ms, hRest, h⟩ := exists_of_bind_eq_ok h
    obtain ⟨_, _, hLit⟩ := exists_of_bind_eq_ok hLit
    cases hLit
    cases h
    rw [ih hRest]
    rfl

theorem contradicts_eq_false_iff (hd : d.Canonical) :
    contradicts d ls = false ↔ ∃ ρ, d.eval ρ = true ∧ Meets ρ ls := by
  have hLits : ∀ e ∈ ls.map Diagram.ofLit, e.Canonical := by
    intro e he
    obtain ⟨l, _, rfl⟩ := List.mem_map.mp he
    exact canonical_ofLit l
  rw [contradicts, (hd.and (canonical_conjunction hLits)).isFalse_eq_false_iff]
  simp [Meets]

/-- The diagram with the cubes of both kinds of assumptions. -/
theorem canonical_and_cubes {core more : List Lit} {dCore dMore : Diagram} (hd : d.Canonical)
    (hMore : cube capacity more = .ok dMore) (hCore : cube capacity core = .ok dCore) :
    ((d.and dMore).and dCore).Canonical ∧ ∀ ρ, ((d.and dMore).and dCore).eval ρ = true ↔
      d.eval ρ = true ∧ Meets ρ (core ++ more) := by
  obtain ⟨hMoreCanonical, hMoreEval⟩ := cube_eq_ok hMore
  obtain ⟨hCoreCanonical, hCoreEval⟩ := cube_eq_ok hCore
  refine ⟨(hd.and hMoreCanonical).and hCoreCanonical, fun ρ => ?_⟩
  rw [Diagram.eval_and, Diagram.eval_and, Bool.and_eq_true, Bool.and_eq_true, hMoreEval,
    hCoreEval, meets_append]
  exact ⟨fun h => ⟨h.1.1, h.2, h.1.2⟩, fun h => ⟨⟨h.1, h.2.2⟩, h.2.1⟩⟩

theorem decideUnder_eq_ok {core more : List Lit} {s s' : DiagramSession} {a : Answer}
    (hd : d.Canonical) (h : decideUnder d core more interest s = .ok (a, s')) :
    (∃ coins, s' = { s with coins }) ∧
      a.IsRight {ρ | d.eval ρ = true} (core ++ more) interest := by
  obtain ⟨dMore, hMore, h⟩ := exists_of_bind_eq_ok h
  obtain ⟨dCore, hCore, h⟩ := exists_of_bind_eq_ok h
  obtain ⟨hAll, hEval⟩ := canonical_and_cubes hd hMore hCore
  dsimp only at h
  split at h
  · rename_i hNone
    cases h
    refine ⟨⟨_, rfl⟩, fun ρ hρ hMeets => ?_⟩
    have hTrue := (hEval ρ).mpr ⟨hρ, hMeets⟩
    rw [s.chooser.complete hAll.ordered hNone] at hTrue
    cases hTrue
  · rename_i ρ hSome
    obtain ⟨m, hModel, h⟩ := exists_of_bind_eq_ok h
    obtain rfl := model_eq_ok hModel
    have hChosen := (hEval ρ).mp (s.chooser.sound hAll.ordered hSome)
    split at h
    · cases h
      refine ⟨⟨_, rfl⟩, ?_⟩
      have hSat : ∀ ls, (!contradicts ((d.and dMore).and dCore) ls) = true →
          ∃ ρ ∈ {ρ | d.eval ρ = true ∧ Meets ρ (core ++ more)}, Meets ρ ls := by
        intro ls hls
        rw [Bool.not_eq_true'] at hls
        obtain ⟨ρ, hρ, hMeets⟩ := (contradicts_eq_false_iff hAll).mp hls
        exact ⟨ρ, (hEval ρ).mp hρ, hMeets⟩
      obtain ⟨ρ, ⟨hρ, hMeets⟩, hEq⟩ :=
        randomizeModel_modelLits hSat hChosen interest s.coins
      exact ⟨ρ, hρ, hMeets, hEq⟩
    · cases h
      exact ⟨⟨_, rfl⟩, ρ, hChosen.1, hChosen.2, rfl⟩

def modelsOf (d : Diagram) : Set Assignment := {ρ | d.eval ρ = true}

open Classical in
/-- The models of the diagrams, which are canonical in every session that can be reached. -/
noncomputable def models (s : DiagramSession) : List (Set Assignment) :=
  if ∀ d ∈ s.frames, d.Canonical then s.frames.map modelsOf else []

variable {s s' : DiagramSession} {M : Set Assignment} {rest : List (Set Assignment)} {u : Unit}

theorem models_of_canonical (h : ∀ d ∈ s.frames, d.Canonical) :
    s.models = s.frames.map modelsOf :=
  if_pos h

theorem exists_of_models (h : s.models = M :: rest) : ∃ d ds, s.frames = d :: ds ∧
    d.Canonical ∧ (∀ e ∈ ds, e.Canonical) ∧ M = modelsOf d ∧ rest = ds.map modelsOf := by
  rw [models] at h
  split at h
  · rename_i hCanonical
    cases hFrames : s.frames with
    | nil =>
      rw [hFrames] at h
      cases h
    | cons d ds =>
      rw [hFrames] at h hCanonical
      cases h
      obtain ⟨hd, hds⟩ := List.forall_mem_cons.mp hCanonical
      exact ⟨d, ds, rfl, hd, hds, rfl, rfl⟩
  · cases h

theorem returns_top (h : Returns top s d s') : s' = s ∧ ∃ ds, s.frames = d :: ds := by
  have h := returns_get_bind.mp h
  cases hFrames : s.frames with
  | nil =>
    simp only [hFrames] at h
    exact absurd h not_returns_throw
  | cons e ds =>
    simp only [hFrames] at h
    obtain ⟨rfl, rfl⟩ := returns_pure.mp h
    exact ⟨rfl, ds, rfl⟩

theorem models_top (hs : s.models = M :: rest) (h : Returns top s d s') :
    s' = s ∧ d.Canonical ∧ M = modelsOf d := by
  obtain ⟨rfl, ds, hFrames⟩ := returns_top h
  obtain ⟨e, es, hFrames', hCanonical, _, hM, _⟩ := exists_of_models hs
  rw [hFrames] at hFrames'
  cases hFrames'
  exact ⟨rfl, hCanonical, hM⟩

theorem returns_solveUnder_iff {core more : List Lit} {a : Answer} :
    Returns (solveUnder d core more interest) s a s' ↔
      decideUnder d core more interest s = .ok (a, s') := by
  refine (returns_get_bind.trans returns_ofExcept_bind).trans ⟨?_, ?_⟩
  · rintro ⟨⟨b, t⟩, hDecide, h⟩
    obtain ⟨_, t', hSet, h⟩ := returns_bind.mp h
    obtain rfl := returns_set.mp hSet
    obtain ⟨rfl, rfl⟩ := returns_pure.mp h
    exact hDecide
  · intro hDecide
    exact ⟨(a, s'), hDecide,
      returns_bind.mpr ⟨(), s', returns_set.mpr rfl, returns_pure.mpr ⟨rfl, rfl⟩⟩⟩

theorem returns_solveUnder {core more : List Lit} {a : Answer} (hd : d.Canonical)
    (h : Returns (solveUnder d core more interest) s a s') :
    (∃ coins, s' = { s with coins }) ∧ a.IsRight (modelsOf d) (core ++ more) interest :=
  decideUnder_eq_ok hd (returns_solveUnder_iff.mp h)

theorem models_addClause (hs : s.models = M :: rest)
    (h : Returns (addClause c) s u s') : s'.models = (M ∩ c.models) :: rest := by
  obtain ⟨d, hClause, h⟩ := returns_ofExcept_bind.mp (returns_get_bind.mp h)
  obtain ⟨_, hd, hEval⟩ := clause_eq_ok hClause
  obtain ⟨e, es, hFrames, he, hes, rfl, rfl⟩ := exists_of_models hs
  simp only [hFrames] at h
  obtain rfl := returns_set.mp h
  rw [models_of_canonical (List.forall_mem_cons.mpr ⟨he.and hd, hes⟩), List.map_cons]
  refine congrArg (· :: _) ?_
  ext ρ
  change (e.and d).eval ρ = true ↔ e.eval ρ = true ∧ ρ ∈ c.models
  rw [Diagram.eval_and, Bool.and_eq_true, hEval]

theorem check_returns {assumed : List Lit} {b : Bool} (hs : s.models = M :: rest)
    (h : Returns (check assumed) s b s') :
    s'.models = M :: rest ∧ (b = true ↔ ∃ ρ ∈ M, Meets ρ assumed) := by
  obtain ⟨e, hCube, h⟩ := returns_ofExcept_bind.mp (returns_get_bind.mp h)
  obtain ⟨d, t, hTop, hRest⟩ := returns_bind.mp h
  obtain ⟨rfl, hd, rfl⟩ := models_top hs hTop
  obtain ⟨rfl, rfl⟩ := returns_pure.mp hRest
  obtain ⟨he, hEval⟩ := cube_eq_ok hCube
  refine ⟨hs, ?_⟩
  rw [Bool.not_eq_true', (hd.and he).isFalse_eq_false_iff]
  refine exists_congr fun ρ => ?_
  rw [Diagram.eval_and, Bool.and_eq_true, hEval]
  rfl

theorem models_push (hs : s.models = M :: rest) (h : Returns push s u s') :
    s'.models = M :: M :: rest := by
  have h := returns_get_bind.mp h
  obtain ⟨d, ds, hFrames, hd, hds, rfl, rfl⟩ := exists_of_models hs
  simp only [hFrames] at h
  split at h
  · obtain rfl := returns_set.mp h
    exact models_of_canonical (List.forall_mem_cons.mpr ⟨hd, List.forall_mem_cons.mpr ⟨hd, hds⟩⟩)
  · exact absurd h not_returns_throw

theorem models_pop (hs : s.models = M :: rest) (h : Returns pop s u s') :
    s'.models = rest := by
  have h := returns_get_bind.mp h
  obtain ⟨d, ds, hFrames, _, hds, _, rfl⟩ := exists_of_models hs
  split at h
  · exact absurd h not_returns_throw
  · exact absurd h not_returns_throw
  · rename_i hFrames'
    rw [hFrames] at hFrames'
    cases hFrames'
    obtain rfl := returns_set.mp h
    exact models_of_canonical hds

noncomputable instance : ExactProcedure DiagramSession where
  frames := models
  frames_start _ _ _ := by
    refine (models_of_canonical (List.forall_mem_singleton.mpr (canonical_leaf true))).trans ?_
    refine congrArg (· :: []) (Set.eq_univ_of_forall fun ρ => ?_)
    rfl
  frames_finish _ := models_of_canonical (List.forall_mem_nil _)
  isSat_returns h := by
    obtain ⟨d, hFormula, h⟩ := returns_ofExcept_bind.mp (returns_get_bind.mp h)
    obtain ⟨rfl, rfl⟩ := returns_pure.mp h
    obtain ⟨hd, hEval⟩ := formula_eq_ok hFormula
    refine ⟨rfl, ?_⟩
    rw [Bool.not_eq_true', hd.isFalse_eq_false_iff]
    exact exists_congr hEval
  solve_returns h := by
    obtain ⟨d, hFormula, h⟩ := returns_ofExcept_bind.mp (returns_get_bind.mp h)
    obtain ⟨hd, hEval⟩ := formula_eq_ok hFormula
    obtain ⟨⟨_, rfl⟩, hRight⟩ := returns_solveUnder hd h
    rw [List.append_nil, show modelsOf d = _ from Set.ext hEval] at hRight
    exact ⟨rfl, hRight⟩
  frames_keep h := by
    obtain ⟨_, t, hTop, hRest⟩ := returns_bind.mp h
    obtain ⟨rfl, _⟩ := returns_top hTop
    obtain ⟨_, _, hPure⟩ := returns_ofExcept_bind.mp (returns_get_bind.mp hRest)
    obtain ⟨_, rfl⟩ := returns_pure.mp hPure
    rfl
  frames_addClause := models_addClause
  check_returns := check_returns
  query_returns hs h := by
    obtain ⟨d, t, hTop, hRest⟩ := returns_bind.mp h
    obtain ⟨rfl, hd, rfl⟩ := models_top hs hTop
    obtain ⟨⟨_, rfl⟩, hRight⟩ := returns_solveUnder hd hRest
    exact ⟨hs, hRight⟩
  frames_push := models_push
  frames_pop := models_pop

end SoftError.DiagramSession

import SoftError.Proofs.Decision.Machine

/-!
# Returned models

A procedure is used in any order, with any literals, and some of its calls may fail. What it has
been told is recorded beside it: a call that fails tells nothing. A model that is then returned
has a literal for each variable of interest, and these literals can be added to the formula and
the assumptions. The coins with which a model is varied do not matter.
-/

namespace SoftError

open Deciding ExactProcedure

theorem map_var_modelLits (ρ : Assignment) (interest : List Lit) :
    (modelLits ρ interest).map Lit.var = interest.map Lit.var := by
  simp [modelLits]

theorem Answer.IsRight.satUnder {f : Cnf} {assumed interest model : List Lit}
    (h : (Answer.sat model).IsRight f.models assumed interest) :
    model.map Lit.var = interest.map Lit.var ∧ f.SatUnder (assumed ++ model) := by
  obtain ⟨ρ, hρ, hAssumed, rfl⟩ := h
  exact ⟨map_var_modelLits ρ interest,
    ρ, hρ, meets_append.mpr ⟨hAssumed, meets_modelLits ρ interest⟩⟩

namespace Deciding

variable {σ ε α β : Type} {Ready : σ → Prop} {allowed : Prop} {s : σ}

/-- The computation is allowed and keeps the state ready, or it fails and changes nothing. -/
def Settles (Ready : σ → Prop) (allowed : Prop) (m : Deciding σ ε α) (s : σ) : Prop :=
  (∃ e, Refuses m s e) ∨ allowed ∧ ∃ a s', Returns m s a s' ∧ Ready s'

theorem Complies.settles {m : Deciding σ ε α} {refusal : Option ε}
    (h : Complies Ready m s refusal) : Settles Ready (refusal = none) m s := by
  cases refusal with
  | none => exact .inr ⟨rfl, h⟩
  | some e => exact .inl ⟨e, h⟩

theorem Settles.of_returns {m : Deciding σ ε α} (h : Settles Ready allowed m s) {a : α} {s' : σ}
    (hReturns : Returns m s a s') : allowed ∧ Ready s' := by
  unfold Returns at hReturns
  obtain ⟨e, hRefuses⟩ | ⟨hAllowed, b, t, hRun, hReady⟩ := h
  · rw [Refuses, hReturns] at hRefuses
    cases hRefuses
  · rw [Returns, hReturns] at hRun
    cases hRun
    exact ⟨hAllowed, hReady⟩

theorem settles_bind {m : Deciding σ ε α} {f : α → Deciding σ ε β} {a : α}
    (hFirst : Returns m s a s) (h : Settles Ready allowed (f a) s) :
    Settles Ready allowed (m >>= f) s := by
  obtain ⟨e, hRefuses⟩ | ⟨hAllowed, b, t, hRun, hReady⟩ := h
  · exact .inl ⟨e, refuses_bind hFirst hRefuses⟩
  · exact .inr ⟨hAllowed, b, t, returns_bind.mpr ⟨a, s, hFirst, hRun⟩, hReady⟩

theorem settles_ofExcept_bind {x : Except ε α} {f : α → Deciding σ ε β}
    (h : ∀ a, x = .ok a → Settles Ready allowed (f a) s) :
    Settles Ready allowed (MonadExcept.ofExcept x >>= f) s := by
  cases x with
  | error e => exact .inl ⟨e, rfl⟩
  | ok a => exact settles_bind (a := a) rfl (h a rfl)

theorem settles_pure (hAllowed : allowed) (hReady : Ready s) (a : α) :
    Settles Ready allowed (pure a : Deciding σ ε α) s :=
  .inr ⟨hAllowed, a, s, returns_pure.mpr ⟨rfl, rfl⟩, hReady⟩

end Deciding

/-- No literal makes a procedure fail in the middle of a call. -/
structure Steady {σ : Type} [DecisionProcedure σ] [ExactProcedure σ] (Ready : Bool → σ → Prop) :
    Prop where
  start : ∀ {nested s} (keep : List Lit) (nested' : Bool), Ready nested s →
    Ready nested' (DecisionProcedure.start keep nested' s)
  finish : ∀ {nested s}, Ready nested s → Ready nested (DecisionProcedure.finish s)
  isSat : ∀ {nested s} (f : Cnf), Ready nested s →
    Settles (Ready nested) True (DecisionProcedure.isSat f) s
  solve : ∀ {nested s} (f : Cnf) (assumed interest : List Lit), Ready nested s →
    Settles (Ready nested) True (DecisionProcedure.solve f assumed interest) s
  keep : ∀ {nested s} (l : Lit), Ready nested s →
    Settles (Ready nested) (Refusal.closed (frames s) = none) (DecisionProcedure.keep l) s
  addClause : ∀ {nested s} (c : Clause), Ready nested s →
    Settles (Ready nested) (Refusal.closed (frames s) = none) (DecisionProcedure.addClause c) s
  check : ∀ {nested s} (ls : List Lit), Ready nested s →
    Settles (Ready nested) (Refusal.closed (frames s) = none) (DecisionProcedure.check ls) s
  query : ∀ {nested s} (core more interest : List Lit), Ready nested s →
    Settles (Ready nested) (Refusal.closed (frames s) = none)
      (DecisionProcedure.query core more interest) s
  push : ∀ {nested s}, Ready nested s →
    Settles (Ready nested) (Refusal.push nested (frames s) = none) DecisionProcedure.push s
  pop : ∀ {nested s}, Ready nested s →
    Settles (Ready nested) (Refusal.pop (frames s) = none) DecisionProcedure.pop s

theorem SearchSession.steady : Steady fun nested (s : SearchSession) => s.nested = nested where
  start := answering.start
  finish := answering.finish
  isSat _ h := .inr ⟨trivial, _, _, returns_pure.mpr ⟨rfl, rfl⟩, h⟩
  solve {_ s} f assumed interest h := by
    obtain ⟨coins, hState⟩ := exists_coins_decideUnder (.ofCnf f) assumed [] interest s
    exact .inr ⟨trivial, (decideUnder (.ofCnf f) assumed [] interest s).1, { s with coins },
      hState ▸ rfl, h⟩
  keep _ h := (answering.keep h trivial).settles
  addClause _ h := (answering.addClause h fun _ _ => trivial).settles
  check _ h := (answering.check h fun _ _ => trivial).settles
  query _ _ _ h := (answering.query h fun _ _ => trivial).settles
  push h := (answering.push h).settles
  pop h := (answering.pop h).settles

namespace DiagramSession

variable {capacity : Nat} {nested : Bool} {s : DiagramSession} (h : Ready capacity nested s)
include h

theorem Ready.settles_of_top {α : Type} {next : Diagram → Deciding DiagramSession SolverError α}
    (hNext : ∀ d, d.Canonical → Refusal.closed s.models = none →
      Settles (Ready capacity nested) (Refusal.closed s.models = none) (next d) s) :
    Settles (Ready capacity nested) (Refusal.closed s.models = none) (top >>= next) s := by
  cases hFrames : s.frames with
  | nil =>
    refine .inl ⟨.noSession, ?_⟩
    rw [Refuses, run_bind, refuses_top_of hFrames]
  | cons d ds =>
    have hOpen : Refusal.closed s.models = none := by
      rw [h.closed_eq, hFrames]
      rfl
    have hd : d.Canonical := h.canonical d (hFrames ▸ List.mem_cons_self)
    exact settles_bind (returns_top_of hFrames) (hNext d hd hOpen)

theorem Ready.settles_solveUnder {allowed : Prop} (hAllowed : allowed) {d : Diagram}
    (hd : d.Canonical) (core more interest : List Lit) :
    Settles (Ready capacity nested) allowed (solveUnder d core more interest) s := by
  refine settles_bind (a := s) rfl (settles_ofExcept_bind fun x hDecide => ?_)
  obtain ⟨⟨coins, hState⟩, -⟩ := decideUnder_eq_ok hd hDecide
  refine .inr ⟨hAllowed, x.1, x.2, ?_, ?_⟩
  · exact returns_bind.mpr ⟨(), x.2, returns_set.mpr rfl, returns_pure.mpr ⟨rfl, rfl⟩⟩
  · rw [hState]
    exact ⟨h.capacity, h.nested, h.canonical⟩

theorem Ready.settles_addClause (c : Clause) :
    Settles (Ready capacity nested) (Refusal.closed s.models = none)
      (DiagramSession.addClause c) s := by
  cases hClause : clause s.capacity c with
  | error e =>
    refine .inl ⟨e, refuses_bind (a := s) rfl ?_⟩
    rw [hClause]
    rfl
  | ok d => exact (h.addClause hClause).settles

theorem Ready.settles_check (ls : List Lit) :
    Settles (Ready capacity nested) (Refusal.closed s.models = none)
      (DiagramSession.check ls) s := by
  cases hCube : cube s.capacity ls with
  | error e =>
    refine .inl ⟨e, refuses_bind (a := s) rfl ?_⟩
    rw [hCube]
    rfl
  | ok d => exact (h.check hCube).settles

omit h in
theorem steady (capacity : Nat) : Steady (Ready capacity) where
  start := (answering capacity).start
  finish := (answering capacity).finish
  isSat _ h := settles_bind (a := _) rfl (settles_ofExcept_bind fun _ _ => settles_pure trivial h _)
  solve _ assumed interest h := settles_bind (a := _) rfl (settles_ofExcept_bind fun _ hd =>
    h.settles_solveUnder trivial (formula_eq_ok hd).1 assumed [] interest)
  keep _ h := h.settles_of_top fun _ _ hOpen =>
    settles_bind (a := _) rfl (settles_ofExcept_bind fun _ _ => settles_pure hOpen h _)
  addClause c h := h.settles_addClause c
  check ls h := h.settles_check ls
  query core more interest h := h.settles_of_top fun _ hd hOpen =>
    h.settles_solveUnder hOpen hd core more interest
  push h := ((answering capacity).push h).settles
  pop h := ((answering capacity).pop h).settles

end DiagramSession

/-- The calls of a procedure. -/
inductive Operation where
  | isSat (f : Cnf)
  | solve (f : Cnf) (assumed interest : List Lit)
  | start (keep : List Lit) (nested : Bool)
  | finish
  | keep (l : Lit)
  | addClause (c : Clause)
  | check (assumed : List Lit)
  | query (core more interest : List Lit)
  | push
  | pop

section History

variable {σ : Type} [DecisionProcedure σ]

/-- The state after a call beside what the procedure has been told. It has been told nothing if
the call fails. -/
def Deciding.record {ε α : Type} (m : Deciding σ ε α) (next : ClauseStack)
    (x : σ × ClauseStack) : σ × ClauseStack :=
  match m.run.run x.1 with
  | (.ok _, s) => (s, next)
  | (.error _, s) => (s, x.2)

def Operation.perform (x : σ × ClauseStack) : Operation → σ × ClauseStack
  | isSat f => record (DecisionProcedure.isSat f) x.2 x
  | solve f assumed interest => record (DecisionProcedure.solve f assumed interest) x.2 x
  | start ks nested => (DecisionProcedure.start ks nested x.1, ⟨[[]], nested⟩)
  | finish => (DecisionProcedure.finish x.1, { x.2 with frames := [] })
  | keep l => record (DecisionProcedure.keep l) x.2 x
  | addClause c => record (DecisionProcedure.addClause c) (x.2.append [c]) x
  | check assumed => record (DecisionProcedure.check assumed) x.2 x
  | query core more interest => record (DecisionProcedure.query core more interest) x.2 x
  | push => record DecisionProcedure.push x.2.save x
  | pop => record DecisionProcedure.pop x.2.restore x

def Operation.history (ops : List Operation) (s : σ) : σ × ClauseStack :=
  ops.foldl Operation.perform (s, {})

variable [ExactProcedure σ] {Ready : Bool → σ → Prop}

namespace Represents

variable {s : σ} {m : ClauseStack} (hs : Represents Ready s m)
include hs

theorem record {α : Type} {op : Deciding σ SolverError α} {allowed : Prop} {next : ClauseStack}
    (hNested : next.nested = m.nested) (hOp : Settles (Ready m.nested) allowed op s)
    (hNext : allowed → ∀ a s', Returns op s a s' → frames s' = next.frames.map Cnf.models) :
    Represents Ready (op.record next (s, m)).1 (op.record next (s, m)).2 := by
  rw [Deciding.record]
  obtain ⟨e, hRefuses⟩ | ⟨hAllowed, a, s', hRun, hReady⟩ := hOp
  · rw [show op.run.run s = (.error e, s) from hRefuses]
    exact hs
  · rw [show op.run.run s = (.ok a, s') from hRun]
    exact ⟨hNested.symm ▸ hReady, hNext hAllowed a s' hRun⟩

theorem perform (h : Steady Ready) (op : Operation) :
    Represents Ready (op.perform (s, m)).1 (op.perform (s, m)).2 := by
  have hOpen : Refusal.closed (frames s) = none → Refusal.closed m.frames = none :=
    hs.closed_eq.symm.trans
  cases op with
  | isSat f =>
    exact hs.record rfl (h.isSat f hs.ready) fun _ _ _ hRun =>
      (isSat_returns hRun).1.trans hs.models
  | solve f assumed interest =>
    exact hs.record rfl (h.solve f assumed interest hs.ready) fun _ _ _ hRun =>
      (solve_returns hRun).1.trans hs.models
  | start ks nested =>
    refine ⟨h.start ks nested hs.ready, (frames_start ks nested s).trans ?_⟩
    exact congrArg (· :: []) (Set.eq_univ_of_forall fun _ => rfl).symm
  | finish => exact ⟨h.finish hs.ready, frames_finish s⟩
  | keep l =>
    exact hs.record rfl (h.keep l hs.ready) fun _ _ _ hRun => (frames_keep hRun).trans hs.models
  | addClause c =>
    refine hs.record rfl (h.addClause c hs.ready) fun hClosed u s' hRun => ?_
    have hAdd : Returns (Deciding.addCnf [c]) s u s' := by
      rw [addCnf_singleton]
      exact hRun
    exact hs.models_append (hOpen hClosed) hAdd
  | check ls =>
    refine hs.record rfl (h.check ls hs.ready) fun hClosed _ _ hRun => ?_
    obtain ⟨f, fs, -, hModels⟩ := hs.exists_frame (hOpen hClosed)
    exact (check_returns hModels hRun).1.trans (hModels ▸ hs.models)
  | query core more interest =>
    refine hs.record rfl (h.query core more interest hs.ready) fun hClosed _ _ hRun => ?_
    obtain ⟨f, fs, -, hModels⟩ := hs.exists_frame (hOpen hClosed)
    exact (query_returns hModels hRun).1.trans (hModels ▸ hs.models)
  | push =>
    exact hs.record rfl (h.push hs.ready) fun hPush _ _ hRun =>
      hs.models_save (hs.push_eq ▸ hPush) hRun
  | pop =>
    exact hs.record rfl (h.pop hs.ready) fun hPop _ _ hRun =>
      hs.models_restore (hs.pop_eq ▸ hPop) hRun

theorem history (h : Steady Ready) (ops : List Operation) :
    Represents Ready (ops.foldl Operation.perform (s, m)).1
      (ops.foldl Operation.perform (s, m)).2 := by
  induction ops generalizing s m with
  | nil => exact hs
  | cons op ops ih => exact ih (hs.perform h op)

end Represents

/-- Every model that the procedure may now return is a model. -/
structure ReturnsModels (x : σ × ClauseStack) : Prop where
  solve : ∀ {f : Cnf} {assumed interest model : List Lit} {s : σ},
    Returns (DecisionProcedure.solve f assumed interest) x.1 (.sat model) s →
      model.map Lit.var = interest.map Lit.var ∧ f.SatUnder (assumed ++ model)
  query : ∀ {core more interest model : List Lit} {s : σ},
    Returns (DecisionProcedure.query core more interest) x.1 (.sat model) s →
      ∃ f fs, x.2.frames = f :: fs ∧
        model.map Lit.var = interest.map Lit.var ∧ f.SatUnder (core ++ more ++ model)

theorem Represents.returnsModels {x : σ × ClauseStack} (hs : Represents Ready x.1 x.2)
    (h : Steady Ready) : ReturnsModels x where
  solve hRun := (solve_returns hRun).2.satUnder
  query {core more interest _ _} hRun := by
    have hClosed := ((h.query core more interest hs.ready).of_returns hRun).1
    obtain ⟨f, fs, hFrames, hModels⟩ := hs.exists_frame (hs.closed_eq ▸ hClosed)
    exact ⟨f, fs, hFrames, (query_returns hModels hRun).2.satUnder⟩

end History

theorem SearchSession.represents_new (o : Options) (coins : Coins) (blame : Blame)
    (solver : Solver) :
    Represents (fun nested (s : SearchSession) => s.nested = nested)
      { ofOptions o with coins, blame, solver } {} :=
  ⟨rfl, rfl⟩

theorem DiagramSession.represents_new (capacity : Nat) (o : Options) (coins : Coins)
    (chooser : Diagram.Chooser) :
    Represents (Ready capacity) { ofOptions capacity o with coins, chooser } {} := by
  have hReady : Ready capacity false { ofOptions capacity o with coins, chooser } :=
    ⟨rfl, rfl, List.forall_mem_nil _⟩
  exact ⟨hReady, hReady.models_eq⟩

/-- Whatever was done before, the options are and the coins show, both kinds of sessions return
models, whichever model the solver finds and whichever assignment is chosen for a diagram. -/
theorem sessions_return_models (o : Options) (capacity : Nat) (coins : Coins) (blame : Blame)
    (solver : Solver) (chooser : Diagram.Chooser) (ops : List Operation) :
    ReturnsModels
      (Operation.history ops { SearchSession.ofOptions o with coins, blame, solver }) ∧
    ReturnsModels
      (Operation.history ops { DiagramSession.ofOptions capacity o with coins, chooser }) := by
  have hSearch :=
    (SearchSession.represents_new o coins blame solver).history SearchSession.steady ops
  have hDiagram := (DiagramSession.represents_new capacity o coins chooser).history
    (DiagramSession.steady capacity) ops
  exact ⟨hSearch.returnsModels SearchSession.steady,
    hDiagram.returnsModels (DiagramSession.steady capacity)⟩

/-- Every other toss shows heads. -/
def alternating : Coins := ⟨0, fun n => (n % 2 == 0, n + 1)⟩

/-- The value of the variable is left open if it does not matter. -/
def Solver.leavingOpen (v : Nat) : Solver where
  solve p assumed :=
    let q := p.assume assumed
    q.model?.map fun ρ => ⟨q.formula.maxVar, fun w =>
      if w = v ∧ q.formula.holds (Function.update ρ v !ρ v) = true then none else some (ρ w)⟩
  sound {p assumed m} hSolve ρ hAgrees := by
    obtain ⟨ρ', hModel, rfl⟩ := Option.map_eq_some_iff.mp hSolve
    have hHolds : (p.assume assumed).formula.holds ρ = true := by
      by_cases hSame : ∀ c ∈ (p.assume assumed).formula, ∀ l ∈ c, ρ l.var = ρ' l.var
      · rw [Cnf.holds_congr hSame, Problem.holds_of_model? hModel]
      · push Not at hSame
        obtain ⟨c, hc, l, hl, hNe⟩ := hSame
        have hLe := (Cnf.maxVar_le_iff (f := (p.assume assumed).formula)).mp le_rfl
        -- the value of `l` is open, so it is the one that does not matter
        have hOpen : l.var = v ∧
            (p.assume assumed).formula.holds (Function.update ρ' v !ρ' v) = true := by
          by_contra hKnown
          exact hNe (hAgrees l.var (ρ' l.var) (hLe c hc l hl) (if_neg hKnown))
        rw [← hOpen.2]
        refine Cnf.holds_congr fun d hd k hk => ?_
        by_cases hVar : k.var = v
        · rw [hVar, Function.update_self, ← hOpen.1]
          exact Bool.eq_not_of_ne hNe
        · rw [Function.update_of_ne hVar]
          exact hAgrees k.var _ (hLe d hd k hk) (if_neg fun h => hVar h.1)
    rw [Problem.holds_assume, Bool.and_eq_true] at hHolds
    exact ⟨hHolds.2, hHolds.1⟩
  complete {p assumed} hSolve := Solver.learning.complete (Option.map_eq_none_iff.mpr
    (Option.map_eq_none_iff.mp hSolve))

/-- A session that has been saved and restored. The last call has failed. -/
def variedSession : SearchSession × ClauseStack :=
  Operation.history [.start [] true, .addClause [2, 3, 4], .push, .addClause [-2], .pop, .pop]
    { SearchSession.ofOptions { randomModels := true } with
      coins := alternating, blame := .all, solver := .leavingOpen 2 }

theorem represents_variedSession :
    Represents (fun nested (s : SearchSession) => s.nested = nested) variedSession.1
      variedSession.2 :=
  (SearchSession.represents_new _ alternating .all (.leavingOpen 2)).history SearchSession.steady _

/-- A variable of interest is repeated, and one is the constant. -/
theorem variedSession_returns_models :
    let x : Lit := ⟨2, by decide⟩
    let y : Lit := ⟨3, by decide⟩
    let z : Lit := ⟨4, by decide⟩
    ∃ model s, Returns (DecisionProcedure.query [z] [-y] [-x, y, .top, z, -y]) variedSession.1
      (.sat model) s ∧ model.map Lit.var = [2, 3, 1, 4, 3] ∧
      Cnf.SatUnder [[x, y, z]] ([z] ++ [-y] ++ model) := by
  intro x y z
  have hTold : variedSession.2.frames = [[[x, y, z]]] := by decide +kernel
  have hLits : ∀ l ∈ [z] ++ [-y] ++ [-x, y, .top, z, -y], True := fun _ _ => trivial
  have hQuery := SearchSession.answering.query represents_variedSession.ready hLits
  rw [represents_variedSession.closed_eq, hTold] at hQuery
  obtain ⟨a, s, hRun, -⟩ := hQuery
  cases a with
  | sat model =>
    obtain ⟨f, fs, hFrames, hVars, hSat⟩ :=
      (sessions_return_models { randomModels := true } 4 alternating .all (.leavingOpen 2)
        .lowFirst _).1.query hRun
    obtain ⟨rfl, -⟩ := List.cons.inj (hTold.symm.trans hFrames)
    exact ⟨model, s, hRun, hVars, hSat⟩
  | unsat core =>
    have hModels := represents_variedSession.models
    rw [hTold] at hModels
    obtain ⟨-, hNone⟩ := query_returns hModels hRun
    have hModel : Cnf.holds (fun v => v == 4) [[x, y, z]] = true := by decide
    exact absurd (show ∀ l ∈ [z] ++ [-y], l.holds (fun v => v == 4) = true by decide)
      (hNone _ hModel)

end SoftError

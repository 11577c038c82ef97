import Mathlib.Data.List.TakeWhile
import SoftError.Proofs.Decision.Diagrams
import SoftError.Proofs.Decision.Search

/-!
# Procedures that always answer

An exact procedure may fail at any time. One that always answers refuses a request only if there
is no session, saves a session if this was announced, and restores it if it was saved. Sessions
decided by search always answer, and those decided by diagrams do so as long as all variables
have a place.
-/

namespace SoftError

open Deciding ExactProcedure

namespace Refusal

variable {α : Type}

/-- Why a session with these frames refuses a request. -/
def closed : List α → Option SolverError
  | [] => some .noSession
  | _ :: _ => none

/-- Nothing is refused if there is nothing to add. -/
def add (f : Cnf) (frames : List α) : Option SolverError :=
  if f.isEmpty then none else closed frames

def push (nested : Bool) : List α → Option SolverError
  | [] => some .noSession
  | _ :: _ => if nested then none else some .pushPopDisabled

def pop : List α → Option SolverError
  | [] => some .noSession
  | [_] => some .nothingToPop
  | _ :: _ :: _ => none

variable {frames : List α}

theorem closed_of_push {nested : Bool} (h : push nested frames = none) : closed frames = none := by
  cases frames with
  | nil => cases h
  | cons x xs => rfl

theorem closed_of_pop (h : pop frames = none) : closed frames = none := by
  cases frames with
  | nil => cases h
  | cons x xs => rfl

end Refusal

namespace Deciding

variable {σ ε α β : Type}

/-- The computation fails and changes nothing. -/
def Refuses (m : Deciding σ ε α) (s : σ) (e : ε) : Prop := m.run.run s = (.error e, s)

theorem refuses_bind {m : Deciding σ ε α} {f : α → Deciding σ ε β} {s : σ} {a : α} {e : ε}
    (hFirst : Returns m s a s) (h : Refuses (f a) s e) : Refuses (m >>= f) s e := by
  rw [Refuses, run_bind, hFirst]
  exact h

/-- A request that is refused changes nothing, and any other one is answered. -/
def Complies (Ready : σ → Prop) (m : Deciding σ ε α) (s : σ) : Option ε → Prop
  | none => ∃ a s', Returns m s a s' ∧ Ready s'
  | some e => Refuses m s e

theorem complies_closed {Ready : σ → Prop} {m : Deciding σ SolverError α} {s : σ} {xs : List β}
    (hClosed : xs = [] → Refuses m s .noSession)
    (hOpen : ∀ y ys, xs = y :: ys → ∃ a s', Returns m s a s' ∧ Ready s') :
    Complies Ready m s (Refusal.closed xs) := by
  cases xs with
  | nil => exact hClosed rfl
  | cons y ys => exact hOpen y ys rfl

end Deciding

/-- The states that `Ready nested` holds of can be reached, with or without the announcement that
the session will be saved. -/
structure Answering {σ : Type} [DecisionProcedure σ] [ExactProcedure σ] (fits : Lit → Prop)
    (Ready : Bool → σ → Prop) : Prop where
  isOpen : ∀ {nested s}, Ready nested s → DecisionProcedure.isOpen s = !(frames s).isEmpty
  start : ∀ {nested s} (keep : List Lit) (nested' : Bool), Ready nested s →
    Ready nested' (DecisionProcedure.start keep nested' s)
  finish : ∀ {nested s}, Ready nested s → Ready nested (DecisionProcedure.finish s)
  keep : ∀ {nested s l}, Ready nested s → fits l →
    Complies (Ready nested) (DecisionProcedure.keep l) s (Refusal.closed (frames s))
  addClause : ∀ {nested s c}, Ready nested s → (∀ l ∈ c, fits l) →
    Complies (Ready nested) (DecisionProcedure.addClause c) s (Refusal.closed (frames s))
  check : ∀ {nested s ls}, Ready nested s → (∀ l ∈ ls, fits l) →
    Complies (Ready nested) (DecisionProcedure.check ls) s (Refusal.closed (frames s))
  query : ∀ {nested s core more interest}, Ready nested s →
    (∀ l ∈ core ++ more ++ interest, fits l) →
    Complies (Ready nested) (DecisionProcedure.query core more interest) s
      (Refusal.closed (frames s))
  push : ∀ {nested s}, Ready nested s →
    Complies (Ready nested) DecisionProcedure.push s (Refusal.push nested (frames s))
  pop : ∀ {nested s}, Ready nested s →
    Complies (Ready nested) DecisionProcedure.pop s (Refusal.pop (frames s))

section Add

variable {σ : Type} [DecisionProcedure σ] [ExactProcedure σ] {fits : Lit → Prop}
  {Ready : Bool → σ → Prop} {nested : Bool} {s : σ} {f : Cnf}

theorem Answering.addCnf (h : Answering fits Ready) (hs : Ready nested s)
    (hf : ∀ c ∈ f, ∀ l ∈ c, fits l) :
    Complies (Ready nested) (Deciding.addCnf f) s (Refusal.add f (frames s)) := by
  induction f generalizing s with
  | nil => exact ⟨(), s, returns_pure.mpr ⟨rfl, rfl⟩, hs⟩
  | cons c f ih =>
    obtain ⟨hc, hf⟩ := List.forall_mem_cons.mp hf
    have hClause := h.addClause hs hc
    change Complies (Ready nested) (DecisionProcedure.addClause c >>= fun _ => Deciding.addCnf f) s
      (Refusal.closed (frames s))
    cases hFrames : frames s with
    | nil =>
      rw [hFrames] at hClause
      exact (run_bind _ _ _).trans (by rw [show _ = _ from hClause])
    | cons M rest =>
      rw [hFrames] at hClause
      obtain ⟨a, t, hReturns, ht⟩ := hClause
      have hRest := ih ht hf
      rw [frames_addClause hFrames hReturns] at hRest
      have hNone : Refusal.add f ((M ∩ c.models) :: rest) = none := by
        cases f <;> rfl
      rw [hNone] at hRest
      obtain ⟨b, s', hReturns', hs'⟩ := hRest
      exact ⟨b, s', returns_bind.mpr ⟨a, t, hReturns, hReturns'⟩, hs'⟩

end Add

namespace SearchSession

theorem complies_of_top {α : Type} {nested : Bool} {s : SearchSession} (h : s.nested = nested)
    {next : Problem → Deciding SearchSession SolverError α}
    (hNext : ∀ p, ∃ a s', Returns (next p) s a s' ∧ s'.nested = s.nested) :
    Complies (fun s => s.nested = nested) (top >>= next) s (Refusal.closed s.models) := by
  obtain ⟨_, fs, _, _, _, _, _, _⟩ := s
  cases fs with
  | nil => rfl
  | cons f fs =>
    obtain ⟨a, s', hReturns, hNested⟩ := hNext f.problem
    exact ⟨a, s', returns_bind.mpr ⟨f.problem, _, rfl, hReturns⟩, hNested.trans h⟩

theorem answering :
    Answering (fun _ => True) fun nested (s : SearchSession) => s.nested = nested where
  isOpen {_ s} _ := by
    obtain ⟨_, fs, _, _, _, _, _, _⟩ := s
    cases fs <;> rfl
  start _ _ _ := rfl
  finish h := h
  keep h _ := complies_of_top h fun _ => ⟨(), _, returns_modify.mpr rfl, rfl⟩
  addClause {_ s _} h _ := by
    obtain ⟨_, fs, _, _, _, _, _, _⟩ := s
    cases fs with
    | nil => rfl
    | cons f fs => exact ⟨_, _, rfl, h⟩
  check {_ s ls} h _ :=
    complies_of_top h fun p => ⟨s.solver.sat p ls, s, rfl, rfl⟩
  query {_ s core more interest} h _ := by
    refine complies_of_top h fun p => ?_
    obtain ⟨coins, hState⟩ := exists_coins_decideUnder p core more interest s
    exact ⟨(decideUnder p core more interest s).1, { s with coins }, hState ▸ rfl, rfl⟩
  push {_ s} h := by
    obtain ⟨nested, fs, _, _, _, _, _, _⟩ := s
    obtain rfl := h
    cases fs with
    | nil => rfl
    | cons f fs =>
      cases nested with
      | false => rfl
      | true => exact ⟨_, _, rfl, rfl⟩
  pop {_ s} h := by
    obtain ⟨_, fs, _, _, _, _, _, _⟩ := s
    rcases fs with _ | ⟨f, _ | ⟨g, fs⟩⟩
    · rfl
    · rfl
    · exact ⟨_, _, rfl, h⟩

end SearchSession

namespace DiagramSession

open Diagram (Canonical canonical_leaf)

variable {capacity : Nat} {c : Clause} {ls interest : List Lit} {d : Diagram}

theorem literal_eq_ok {l : Lit} (h : l.var ≤ capacity) : literal capacity l = .ok (.ofLit l) :=
  if_neg (Nat.not_lt.mpr h)

theorem foldlM_literal_eq_ok (op : Diagram → Diagram → Diagram)
    (h : ∀ l ∈ ls, l.var ≤ capacity) (e : Diagram) :
    ∃ d, ls.foldlM (fun d l => return op d (← literal capacity l)) e = Except.ok d := by
  induction ls generalizing e with
  | nil => exact ⟨e, rfl⟩
  | cons l ls ih =>
    obtain ⟨hl, hls⟩ := List.forall_mem_cons.mp h
    rw [List.foldlM_cons, literal_eq_ok hl]
    exact ih hls (op e (.ofLit l))

theorem mapM_clause_eq_ok {f : Cnf} (h : ∀ l ∈ f.flatten, l.var ≤ capacity) :
    ∃ ds, f.mapM (clause capacity) = .ok ds := by
  induction f with
  | nil => exact ⟨[], rfl⟩
  | cons c f ih =>
    rw [List.flatten_cons, List.forall_mem_append] at h
    obtain ⟨d, hd⟩ := foldlM_literal_eq_ok Diagram.or h.1 (.leaf false)
    obtain ⟨ds, hds⟩ := ih h.2
    refine ⟨d :: ds, ?_⟩
    rw [List.mapM_cons, clause, hd, hds]
    rfl

theorem formula_eq_ok_of_le {f : Cnf} (h : ∀ l ∈ f.flatten, l.var ≤ capacity) :
    ∃ d, formula capacity f = .ok d := by
  have hFits : ∀ c ∈ f, fits capacity c = true := by
    intro c hc
    simp only [fits, List.all_eq_true, decide_eq_true_eq]
    intro l hl
    exact h l (List.mem_flatten.mpr ⟨c, hc, hl⟩)
  obtain ⟨ds, hds⟩ := mapM_clause_eq_ok h
  rw [formula, List.span_eq_takeWhile_dropWhile, List.takeWhile_eq_self_iff.mpr hFits,
    List.dropWhile_eq_nil_iff.mpr hFits]
  refine ⟨.conjunction ds, ?_⟩
  simp only [hds, bind, Except.bind]
  split <;> rfl

theorem model_eq_ok_of_le (ρ : Assignment) (h : ∀ l ∈ interest, l.var ≤ capacity) :
    ∃ m, model capacity ρ interest = .ok m := by
  induction interest with
  | nil => exact ⟨[], rfl⟩
  | cons l interest ih =>
    obtain ⟨hl, hInterest⟩ := List.forall_mem_cons.mp h
    obtain ⟨m, hm⟩ := ih hInterest
    refine ⟨l.withSign (ρ l.var) :: m, ?_⟩
    rw [model] at hm ⊢
    rw [List.mapM_cons, literal_eq_ok hl, hm]
    rfl

theorem decideUnder_eq_ok_of_le {core more : List Lit} {s : DiagramSession}
    (h : ∀ l ∈ core ++ more ++ interest, l.var ≤ s.capacity) (d : Diagram) :
    ∃ a coins, decideUnder d core more interest s = .ok (a, { s with coins }) := by
  rw [List.forall_mem_append, List.forall_mem_append] at h
  obtain ⟨⟨hCore, hMore⟩, hInterest⟩ := h
  obtain ⟨dMore, hMore⟩ := foldlM_literal_eq_ok Diagram.and hMore (.leaf true)
  obtain ⟨dCore, hCore⟩ := foldlM_literal_eq_ok Diagram.and hCore (.leaf true)
  rw [decideUnder, cube, cube, hMore, hCore]
  cases hChoose : s.chooser.choose? ((d.and dMore).and dCore) with
  | none =>
    simp only [bind, Except.bind, hChoose]
    exact ⟨_, _, rfl⟩
  | some ρ =>
    obtain ⟨m, hModel⟩ := model_eq_ok_of_le ρ hInterest
    simp only [bind, Except.bind, hChoose, hModel]
    split <;> exact ⟨_, _, rfl⟩

/-- The capacity is fixed and all diagrams are canonical. -/
structure Ready (capacity : Nat) (nested : Bool) (s : DiagramSession) : Prop where
  capacity : s.capacity = capacity
  nested : s.nested = nested
  canonical : ∀ d ∈ s.frames, d.Canonical

variable {nested : Bool} {s : DiagramSession}

theorem Ready.models_eq (h : Ready capacity nested s) : s.models = s.frames.map modelsOf :=
  models_of_canonical h.canonical

theorem Ready.closed_eq (h : Ready capacity nested s) :
    Refusal.closed s.models = Refusal.closed s.frames := by
  rw [h.models_eq]
  cases s.frames <;> rfl

theorem returns_top_of {ds : List Diagram} (h : s.frames = d :: ds) : Returns top s d s := by
  refine returns_get_bind.mpr ?_
  simp [h]

theorem refuses_top_of (h : s.frames = []) : Refuses top s .noSession := by
  refine refuses_bind (a := s) rfl ?_
  simp only [h]
  rfl

theorem Ready.complies_of_top {α : Type} (h : Ready capacity nested s)
    {next : Diagram → Deciding DiagramSession SolverError α}
    (hNext : ∀ d, ∃ a s', Returns (next d) s a s' ∧ Ready capacity nested s') :
    Complies (Ready capacity nested) (top >>= next) s (Refusal.closed s.models) := by
  rw [h.closed_eq]
  refine complies_closed (fun hFrames => ?_) fun d ds hFrames => ?_
  · rw [Refuses, run_bind, refuses_top_of hFrames]
  · obtain ⟨a, s', hReturns, hReady⟩ := hNext d
    exact ⟨a, s', returns_bind.mpr ⟨d, s, returns_top_of hFrames, hReturns⟩, hReady⟩

theorem Ready.addClause (h : Ready capacity nested s) (hClause : clause s.capacity c = .ok d) :
    Complies (Ready capacity nested) (addClause c) s (Refusal.closed s.models) := by
  rw [h.closed_eq]
  refine complies_closed (fun hFrames => ?_) fun e es hFrames => ?_
  · refine refuses_bind (a := s) rfl (refuses_bind (returns_ofExcept.mpr ⟨hClause, rfl⟩) ?_)
    simp only [hFrames]
    rfl
  · refine ⟨(), { s with frames := e.and d :: es }, ?_, h.capacity, h.nested, ?_⟩
    · refine returns_get_bind.mpr (returns_ofExcept_bind.mpr ⟨d, hClause, ?_⟩)
      simp only [hFrames]
      exact returns_set.mpr rfl
    · obtain ⟨he, hes⟩ := List.forall_mem_cons.mp (hFrames ▸ h.canonical)
      exact List.forall_mem_cons.mpr ⟨he.and (clause_eq_ok hClause).2.1, hes⟩

theorem Ready.check (h : Ready capacity nested s) (hCube : cube s.capacity ls = .ok d) :
    Complies (Ready capacity nested) (check ls) s (Refusal.closed s.models) := by
  rw [h.closed_eq]
  refine complies_closed (fun hFrames => ?_) fun e es hFrames => ?_
  · refine refuses_bind (a := s) rfl (refuses_bind (returns_ofExcept.mpr ⟨hCube, rfl⟩) ?_)
    rw [Refuses, run_bind, refuses_top_of hFrames]
  · refine ⟨!(e.and d).isFalse, s, ?_, h⟩
    refine returns_get_bind.mpr (returns_ofExcept_bind.mpr ⟨d, hCube, ?_⟩)
    exact returns_bind.mpr ⟨e, s, returns_top_of hFrames, returns_pure.mpr ⟨rfl, rfl⟩⟩

theorem Ready.query {core more : List Lit} (h : Ready capacity nested s)
    (hLits : ∀ l ∈ core ++ more ++ interest, l.var ≤ capacity) :
    Complies (Ready capacity nested) (DecisionProcedure.query core more interest) s
      (Refusal.closed s.models) := by
  refine h.complies_of_top fun d => ?_
  obtain ⟨a, coins, hDecide⟩ := decideUnder_eq_ok_of_le (h.capacity ▸ hLits) d
  exact ⟨a, { s with coins }, returns_solveUnder_iff.mpr hDecide, h.capacity, h.nested,
    h.canonical⟩

theorem Ready.push (h : Ready capacity nested s) :
    Complies (Ready capacity nested) push s (Refusal.push nested s.models) := by
  rw [h.models_eq]
  obtain ⟨_, fs, nested, _, _, _⟩ := s
  obtain ⟨rfl, rfl, hCanonical⟩ := h
  cases fs with
  | nil => rfl
  | cons d ds =>
    cases nested with
    | false => rfl
    | true =>
      refine ⟨(), _, rfl, rfl, rfl, ?_⟩
      exact List.forall_mem_cons.mpr ⟨hCanonical d List.mem_cons_self, hCanonical⟩

theorem Ready.pop (h : Ready capacity nested s) :
    Complies (Ready capacity nested) pop s (Refusal.pop s.models) := by
  rw [h.models_eq]
  obtain ⟨_, fs, _, _, _, _⟩ := s
  obtain ⟨rfl, rfl, hCanonical⟩ := h
  rcases fs with _ | ⟨d, _ | ⟨e, ds⟩⟩
  · rfl
  · rfl
  · exact ⟨(), _, rfl, rfl, rfl, (List.forall_mem_cons.mp hCanonical).2⟩

theorem answering (capacity : Nat) : Answering (fun l => l.var ≤ capacity) (Ready capacity) where
  isOpen {_ s} h := by
    change (!s.frames.isEmpty) = !s.models.isEmpty
    rw [h.models_eq, List.isEmpty_map]
  start _ _ h := ⟨h.capacity, rfl, List.forall_mem_singleton.mpr (canonical_leaf true)⟩
  finish h := ⟨h.capacity, h.nested, List.forall_mem_nil _⟩
  keep {_ s l} h hl := by
    refine h.complies_of_top fun d => ⟨(), s, returns_get_bind.mpr ?_, h⟩
    have hLiteral : literal s.capacity l = .ok (.ofLit l) := literal_eq_ok (h.capacity ▸ hl)
    exact returns_ofExcept_bind.mpr ⟨_, hLiteral, returns_pure.mpr ⟨rfl, rfl⟩⟩
  addClause h hc := by
    obtain ⟨d, hd⟩ := foldlM_literal_eq_ok Diagram.or (h.capacity ▸ hc) (.leaf false)
    exact h.addClause hd
  check h hls := by
    obtain ⟨d, hd⟩ := foldlM_literal_eq_ok Diagram.and (h.capacity ▸ hls) (.leaf true)
    exact h.check hd
  query h hLits := h.query hLits
  push h := h.push
  pop h := h.pop

end DiagramSession

end SoftError

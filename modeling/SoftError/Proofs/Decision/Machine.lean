import SoftError.Proofs.Decision.Answering

/-!
# Sessions as stacks of formulas

The specification of a session is a machine with a stack of formulas. Clauses are appended to the
topmost formula, saving the session repeats this formula and restoring it drops it. Whatever the
requests are and in whatever order, sessions decided by search and by diagrams reply what the
machine replies.
-/

namespace SoftError

open Deciding ExactProcedure

inductive Request where
  | start (keep : List Lit) (nested : Bool)
  | finish
  | keep (l : Lit)
  | addClause (c : Clause)
  | addUnit (l : Lit)
  | addCube (ls : List Lit)
  | addNegated (ls : List Lit)
  | addCnf (f : Cnf)
  | push
  | pop
  | check (assumptions : List Lit)
  | query (core interest : List Lit)
  | queryUnder (core more interest : List Lit)
deriving DecidableEq

/-- What is told of a request: the error, or the verdict if there is one, and whether a session is
open afterwards. -/
structure Reply where
  result : Except SolverError (Option Bool)
  isOpen : Bool
deriving DecidableEq

def Answer.isSat : Answer → Bool
  | sat _ => true
  | unsat _ => false

namespace Request

def lits : Request → List Lit
  | start ks _ => ks
  | finish | push | pop => []
  | keep l | addUnit l => [l]
  | addClause ls | addCube ls | check ls => ls
  | addNegated ls => Clause.negate ls
  | addCnf f => f.flatten
  | query core interest => core ++ interest
  | queryUnder core more interest => core ++ more ++ interest

def Within (capacity : Nat) (r : Request) : Prop := ∀ l ∈ r.lits, l.var ≤ capacity

instance (capacity : Nat) (r : Request) : Decidable (r.Within capacity) :=
  inferInstanceAs (Decidable (∀ l ∈ r.lits, l.var ≤ capacity))

section Send

variable {σ : Type} [DecisionProcedure σ]

def send : Request → Deciding σ SolverError (Option Bool)
  | start ks nested => Deciding.start ks nested >>= fun _ => pure none
  | finish => Deciding.finish >>= fun _ => pure none
  | keep l => DecisionProcedure.keep l >>= fun _ => pure none
  | addClause c => Deciding.addClause c >>= fun _ => pure none
  | addUnit l => Deciding.addUnit l >>= fun _ => pure none
  | addCube ls => Deciding.addCube ls >>= fun _ => pure none
  | addNegated ls => Deciding.addNegated ls >>= fun _ => pure none
  | addCnf f => Deciding.addCnf f >>= fun _ => pure none
  | push => DecisionProcedure.push >>= fun _ => pure none
  | pop => DecisionProcedure.pop >>= fun _ => pure none
  | check ls => DecisionProcedure.check ls >>= fun b => pure (some b)
  | query core interest =>
    DecisionProcedure.query core [] interest >>= fun a => pure (some a.isSat)
  | queryUnder core more interest =>
    DecisionProcedure.query core more interest >>= fun a => pure (some a.isSat)

/-- The replies of a procedure to one request after the other. -/
def replies : List Request → σ → List Reply
  | [], _ => []
  | r :: rs, s =>
    let (result, s) := r.send.run.run s
    ⟨result, DecisionProcedure.isOpen s⟩ :: replies rs s

end Send

end Request

/-- The formula has a model in which the literals hold. -/
def Cnf.SatUnder (f : Cnf) (ls : List Lit) : Prop := ∃ ρ ∈ f.models, Meets ρ ls

instance (f : Cnf) (ls : List Lit) : Decidable (f.SatUnder ls) :=
  decidable_of_iff ((Problem.ofCnf f).satUnder ls = true) <| by
    rw [Problem.satUnder_iff, Problem.formula_ofCnf]
    rfl

/-- The specification of a session. -/
structure ClauseStack where
  /-- The formulas, the current one first. There is none without a session. -/
  frames : List Cnf := []
  /-- Whether the session may be saved. -/
  nested : Bool := false

namespace ClauseStack

def append (f : Cnf) (m : ClauseStack) : ClauseStack :=
  { m with frames := m.frames.modifyHead (· ++ f) }

def save (m : ClauseStack) : ClauseStack := { m with frames := m.frames.head?.toList ++ m.frames }

def restore (m : ClauseStack) : ClauseStack := { m with frames := m.frames.tail }

/-- Whether the topmost formula is satisfiable under the assumptions. -/
def isSat (ls : List Lit) (m : ClauseStack) : Bool := m.frames.head?.any fun f => f.SatUnder ls

/-- Nothing changes if the request is refused. -/
def guarded (m : ClauseStack) (refusal : Option SolverError) (verdict : Option Bool)
    (next : ClauseStack) :
    Except SolverError (Option Bool) × ClauseStack :=
  match refusal with
  | none => (.ok verdict, next)
  | some e => (.error e, m)

def add (f : Cnf) (m : ClauseStack) : Except SolverError (Option Bool) × ClauseStack :=
  m.guarded (Refusal.add f m.frames) none (m.append f)

def judge (ls : List Lit) (m : ClauseStack) : Except SolverError (Option Bool) × ClauseStack :=
  m.guarded (Refusal.closed m.frames) (some (m.isSat ls)) m

def answer (m : ClauseStack) : Request → Except SolverError (Option Bool) × ClauseStack
  | .start _ nested => (.ok none, ⟨[[]], nested⟩)
  | .finish => (.ok none, { m with frames := [] })
  | .keep _ => m.guarded (Refusal.closed m.frames) none m
  | .addClause c => m.add [c]
  | .addUnit l => m.add [[l]]
  | .addCube ls => m.add (ls.map fun l => [l])
  | .addNegated ls => m.add [ls.map (- ·)]
  | .addCnf f => m.add f
  | .push => m.guarded (Refusal.push m.nested m.frames) none m.save
  | .pop => m.guarded (Refusal.pop m.frames) none m.restore
  | .check ls => m.judge ls
  | .query core _ => m.judge core
  | .queryUnder core more _ => m.judge (core ++ more)

def replies : List Request → ClauseStack → List Reply
  | [], _ => []
  | r :: rs, m =>
    let (result, m) := m.answer r
    ⟨result, !m.frames.isEmpty⟩ :: replies rs m

end ClauseStack

/-- The state of a procedure stands for the state of the machine. -/
structure Represents {σ : Type} [DecisionProcedure σ] [ExactProcedure σ] (Ready : Bool → σ → Prop)
    (s : σ) (m : ClauseStack) : Prop where
  ready : Ready m.nested s
  models : frames s = m.frames.map Cnf.models

section Add

variable {σ : Type} [DecisionProcedure σ]

theorem addCnf_singleton (c : Clause) :
    (Deciding.addCnf [c] : Deciding σ SolverError Unit) = Deciding.addClause c :=
  bind_pure_unit

theorem addCube_eq_addCnf (ls : List Lit) :
    (Deciding.addCube ls : Deciding σ SolverError Unit) =
      Deciding.addCnf (ls.map fun l => [l]) := by
  rw [Deciding.addCube, Deciding.addCnf, List.forM_eq_forM, List.forM_eq_forM, List.forM_map]
  rfl

end Add

section Simulation

variable {σ : Type} [DecisionProcedure σ] [ExactProcedure σ] {fits : Lit → Prop}
  {Ready : Bool → σ → Prop} {s : σ} {m : ClauseStack}

/-- A step of the procedure beside a step of the machine. -/
def Follows (Ready : Bool → σ → Prop) (x : Except SolverError (Option Bool) × σ)
    (y : Except SolverError (Option Bool) × ClauseStack) : Prop :=
  x.1 = y.1 ∧ Represents Ready x.2 y.2

theorem Answer.IsRight.isSat_iff {M : Set Assignment} {assumed interest : List Lit} {a : Answer}
    (h : a.IsRight M assumed interest) : a.isSat = true ↔ ∃ ρ ∈ M, Meets ρ assumed := by
  cases a with
  | sat model =>
    obtain ⟨ρ, hρ, hMeets, _⟩ := h
    exact iff_of_true rfl ⟨ρ, hρ, hMeets⟩
  | unsat core =>
    refine iff_of_false Bool.false_ne_true ?_
    rintro ⟨ρ, hρ, hMeets⟩
    exact h ρ hρ hMeets

theorem ClauseStack.eq_isSat {f : Cnf} {fs : List Cnf} (hFrames : m.frames = f :: fs) {b : Bool}
    {ls : List Lit} (hb : b = true ↔ f.SatUnder ls) : b = m.isSat ls := by
  rw [isSat, hFrames, List.head?_cons, Option.any_some, Bool.eq_iff_iff, decide_eq_true_iff]
  exact hb

namespace Represents

variable (hs : Represents Ready s m)
include hs

theorem closed_eq : Refusal.closed (frames s) = Refusal.closed m.frames := by
  rw [hs.models]
  cases m.frames <;> rfl

theorem push_eq : Refusal.push m.nested (frames s) = Refusal.push m.nested m.frames := by
  rw [hs.models]
  cases m.frames <;> rfl

theorem pop_eq : Refusal.pop (frames s) = Refusal.pop m.frames := by
  rw [hs.models]
  rcases m.frames with _ | ⟨f, _ | ⟨g, fs⟩⟩ <;> rfl

theorem exists_frame (hOpen : Refusal.closed m.frames = none) :
    ∃ f fs, m.frames = f :: fs ∧ frames s = f.models :: fs.map Cnf.models := by
  have hModels := hs.models
  cases hFrames : m.frames with
  | nil =>
    rw [hFrames] at hOpen
    cases hOpen
  | cons f fs =>
    rw [hFrames] at hModels
    exact ⟨f, fs, rfl, hModels⟩

theorem guarded {α : Type} {op : Deciding σ SolverError α} {view : α → Option Bool}
    {refusal : Option SolverError} {verdict : Option Bool} {next : ClauseStack}
    (hNested : next.nested = m.nested) (hOp : Complies (Ready m.nested) op s refusal)
    (hReturns : refusal = none → ∀ a s', Returns op s a s' →
      view a = verdict ∧ frames s' = next.frames.map Cnf.models) :
    Follows Ready ((op >>= fun a => pure (view a)).run.run s) (m.guarded refusal verdict next) := by
  rw [run_bind]
  cases refusal with
  | some e =>
    rw [show op.run.run s = (.error e, s) from hOp]
    exact ⟨rfl, hs⟩
  | none =>
    obtain ⟨a, s', hRun, hReady⟩ := hOp
    obtain ⟨hVerdict, hModels⟩ := hReturns rfl a s' hRun
    rw [show op.run.run s = (.ok a, s') from hRun]
    exact ⟨congrArg Except.ok hVerdict, hNested.symm ▸ hReady, hModels⟩

theorem models_append {f : Cnf} {s' : σ} {u : Unit} (hRefusal : Refusal.add f m.frames = none)
    (h : Returns (Deciding.addCnf f) s u s') :
    frames s' = (m.append f).frames.map Cnf.models := by
  cases hFrames : m.frames with
  | nil =>
    obtain rfl : f = [] := by
      rw [hFrames] at hRefusal
      cases f with
      | nil => rfl
      | cons c f => cases hRefusal
    obtain ⟨_, rfl⟩ := returns_pure.mp h
    rw [hs.models, ClauseStack.append, hFrames]
    rfl
  | cons top rest =>
    have hModels := hs.models
    rw [hFrames, List.map_cons] at hModels
    rw [frames_addCnf hModels h, ClauseStack.append, hFrames]
    refine congrArg (· :: _) ?_
    ext ρ
    exact Cnf.mem_models_append.symm

theorem models_save {s' : σ} {u : Unit} (hOpen : Refusal.push m.nested m.frames = none)
    (h : Returns DecisionProcedure.push s u s') :
    frames s' = m.save.frames.map Cnf.models := by
  obtain ⟨f, fs, hFrames, hModels⟩ := hs.exists_frame (Refusal.closed_of_push hOpen)
  rw [frames_push hModels h, ClauseStack.save, hFrames]
  rfl

theorem models_restore {s' : σ} {u : Unit} (hOpen : Refusal.pop m.frames = none)
    (h : Returns DecisionProcedure.pop s u s') :
    frames s' = m.restore.frames.map Cnf.models := by
  obtain ⟨f, fs, hFrames, hModels⟩ := hs.exists_frame (Refusal.closed_of_pop hOpen)
  rw [frames_pop hModels h, ClauseStack.restore, hFrames]
  rfl

variable (h : Answering fits Ready)
include h

theorem addCnf {f : Cnf} (hf : ∀ c ∈ f, ∀ l ∈ c, fits l) :
    Follows Ready ((Deciding.addCnf f >>= fun _ => pure none).run.run s) (m.add f) := by
  have hAdd := h.addCnf hs.ready hf
  rw [Refusal.add, hs.closed_eq, ← Refusal.add] at hAdd
  exact hs.guarded rfl hAdd fun hNone _ _ hRun => ⟨rfl, hs.models_append hNone hRun⟩

theorem addClause {c : Clause} (hc : ∀ l ∈ c, fits l) :
    Follows Ready ((Deciding.addClause c >>= fun _ => pure none).run.run s) (m.add [c]) := by
  rw [← addCnf_singleton]
  exact hs.addCnf h (List.forall_mem_singleton.mpr hc)

theorem check {ls : List Lit} (hls : ∀ l ∈ ls, fits l) :
    Follows Ready ((DecisionProcedure.check ls >>= fun b => pure (some b)).run.run s)
      (m.judge ls) := by
  have hCheck := h.check hs.ready hls
  rw [hs.closed_eq] at hCheck
  refine hs.guarded rfl hCheck fun hNone b s' hRun => ?_
  obtain ⟨f, fs, hFrames, hModels⟩ := hs.exists_frame hNone
  obtain ⟨hSame, hb⟩ := check_returns hModels hRun
  exact ⟨congrArg some (ClauseStack.eq_isSat hFrames hb), hSame.trans (hModels ▸ hs.models)⟩

theorem query {core more interest : List Lit} (hLits : ∀ l ∈ core ++ more ++ interest, fits l) :
    Follows Ready
      ((DecisionProcedure.query core more interest >>= fun a => pure (some a.isSat)).run.run s)
      (m.judge (core ++ more)) := by
  have hQuery := h.query hs.ready hLits
  rw [hs.closed_eq] at hQuery
  refine hs.guarded rfl hQuery fun hNone a s' hRun => ?_
  obtain ⟨f, fs, hFrames, hModels⟩ := hs.exists_frame hNone
  obtain ⟨hSame, hRight⟩ := query_returns hModels hRun
  exact ⟨congrArg some (ClauseStack.eq_isSat hFrames hRight.isSat_iff),
    hSame.trans (hModels ▸ hs.models)⟩

theorem push : Follows Ready ((Request.push.send (σ := σ)).run.run s) (m.answer .push) := by
  have hPush := h.push hs.ready
  rw [hs.push_eq] at hPush
  exact hs.guarded rfl hPush fun hNone _ _ hRun => ⟨rfl, hs.models_save hNone hRun⟩

theorem pop : Follows Ready ((Request.pop.send (σ := σ)).run.run s) (m.answer .pop) := by
  have hPop := h.pop hs.ready
  rw [hs.pop_eq] at hPop
  exact hs.guarded rfl hPop fun hNone _ _ hRun => ⟨rfl, hs.models_restore hNone hRun⟩

/-- Each request is answered as by the machine. -/
theorem follows {r : Request} (hr : ∀ l ∈ r.lits, fits l) :
    Follows Ready (r.send.run.run s) (m.answer r) := by
  cases r with
  | start ks nested =>
    refine ⟨rfl, h.start ks nested hs.ready, (frames_start ks nested s).trans ?_⟩
    exact congrArg (· :: []) (Set.eq_univ_of_forall fun _ => rfl).symm
  | finish => exact ⟨rfl, h.finish hs.ready, frames_finish s⟩
  | keep l =>
    have hKeep := h.keep hs.ready (List.forall_mem_singleton.mp hr)
    rw [hs.closed_eq] at hKeep
    exact hs.guarded rfl hKeep fun _ _ _ hRun => ⟨rfl, (frames_keep hRun).trans hs.models⟩
  | addClause c => exact hs.addClause h hr
  | addUnit l => exact hs.addClause h hr
  | addCube ls =>
    rw [Request.send, addCube_eq_addCnf]
    refine hs.addCnf h fun c hc => ?_
    obtain ⟨l, hl, rfl⟩ := List.mem_map.mp hc
    exact List.forall_mem_singleton.mpr (hr l hl)
  | addNegated ls => exact hs.addClause h hr
  | addCnf f => exact hs.addCnf h fun c hc l hl => hr l (List.mem_flatten_of_mem hc hl)
  | push => exact hs.push h
  | pop => exact hs.pop h
  | check ls => exact hs.check h hr
  | query core interest =>
    have hLits : ∀ l ∈ core ++ [] ++ interest, fits l := by rwa [List.append_nil]
    have hQuery := hs.query h hLits
    rwa [List.append_nil] at hQuery
  | queryUnder core more interest => exact hs.query h hr

end Represents

theorem replies_eq (h : Answering fits Ready) (hs : Represents Ready s m) {rs : List Request}
    (hrs : ∀ r ∈ rs, ∀ l ∈ r.lits, fits l) : Request.replies rs s = m.replies rs := by
  induction rs generalizing s m with
  | nil => rfl
  | cons r rs ih =>
    obtain ⟨hr, hrs⟩ := List.forall_mem_cons.mp hrs
    obtain ⟨hResult, hNext⟩ := hs.follows h hr
    have hOpen : DecisionProcedure.isOpen (r.send.run.run s).2 =
        !(m.answer r).2.frames.isEmpty := by
      rw [h.isOpen hNext.ready, hNext.models, List.isEmpty_map]
    have hHead : (⟨(r.send.run.run s).1, DecisionProcedure.isOpen (r.send.run.run s).2⟩ : Reply) =
        ⟨(m.answer r).1, !(m.answer r).2.frames.isEmpty⟩ := by
      rw [hResult, hOpen]
    exact congrArg₂ List.cons hHead (ih hNext hrs)

end Simulation

/-- Both kinds of sessions reply as the machine does. -/
theorem replies_eq_machine (capacity : Nat) (o o' : Options) {rs : List Request}
    (hrs : ∀ r ∈ rs, r.Within capacity) :
    Request.replies rs (SearchSession.ofOptions o) =
        Request.replies rs (DiagramSession.ofOptions capacity o') ∧
      Request.replies rs (DiagramSession.ofOptions capacity o') = ClauseStack.replies rs {} := by
  have hSearch : Request.replies rs (SearchSession.ofOptions o) = ClauseStack.replies rs {} :=
    replies_eq SearchSession.answering ⟨rfl, rfl⟩ fun _ _ _ _ => trivial
  have hReady : DiagramSession.Ready capacity false (DiagramSession.ofOptions capacity o') :=
    ⟨rfl, rfl, List.forall_mem_nil _⟩
  have hDiagram := replies_eq (DiagramSession.answering capacity) (m := {})
    ⟨hReady, hReady.models_eq⟩ hrs
  exact ⟨hSearch.trans hDiagram.symm, hDiagram⟩

/-- A session that is saved and restored, and another one that starts before it ends. -/
def nestedRequests : List Request :=
  let x : Lit := 2
  let y : Lit := 3
  [.push, .start [] true, .addClause [x, y], .push, .addNegated [x], .query [-y] [x], .push,
    .addUnit (-y), .check [], .pop, .check [], .start [y] false, .check [-x, -y], .push, .pop,
    .finish, .addCube [], .addCube [x], .push]

theorem nestedRequests_replies :
    (∀ r ∈ nestedRequests, r.Within 3) ∧
      Request.replies nestedRequests (SearchSession.ofOptions {}) =
        Request.replies nestedRequests (DiagramSession.ofOptions 3 {}) ∧
      Request.replies nestedRequests (DiagramSession.ofOptions 3 {}) =
        [⟨.error .noSession, false⟩, ⟨.ok none, true⟩, ⟨.ok none, true⟩, ⟨.ok none, true⟩,
          ⟨.ok none, true⟩, ⟨.ok (some false), true⟩, ⟨.ok none, true⟩, ⟨.ok none, true⟩,
          ⟨.ok (some false), true⟩, ⟨.ok none, true⟩, ⟨.ok (some true), true⟩, ⟨.ok none, true⟩,
          ⟨.ok (some true), true⟩, ⟨.error .pushPopDisabled, true⟩, ⟨.error .nothingToPop, true⟩,
          ⟨.ok none, false⟩, ⟨.ok none, false⟩, ⟨.error .noSession, false⟩,
          ⟨.error .noSession, false⟩] := by
  have hWithin : ∀ r ∈ nestedRequests, r.Within 3 := by decide
  obtain ⟨hSame, hMachine⟩ := replies_eq_machine 3 {} {} hWithin
  exact ⟨hWithin, hSame, hMachine.trans (by decide +kernel)⟩

end SoftError

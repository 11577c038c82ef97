import SoftError.Proofs.Protection.QuietStep
import SoftError.Protection.ManySteps

/-!
# Runs over several steps

The golden run is encoded once, and for each latch a faulty run on top of it. A literal for each
step implies that the flip has gone unnoticed until then, and can be chosen to hold if it has.
-/

namespace SoftError

namespace Encoder

variable {M : Set Assignment} {e : Encoder}

/-- A literal that implies `q` and a clause, and that can be chosen to hold if they do. -/
structure Flags (M : Set Assignment) (e : Encoder) (q : Lit) (c : Clause) (r : Lit × Encoder) :
    Prop extends Extends M e r.2 where
  bounded : r.1.var < r.2.nextVar
  sound : ∀ ρ ∈ r.2.models M, r.1.holds ρ = true → q.holds ρ = true ∧ ρ ∈ c.models
  raise : ∀ ρ ∈ e.models M, ∃ ρ' ∈ r.2.models M, AgreeBelow e.nextVar ρ ρ' ∧
    (q.holds ρ = true → ρ ∈ c.models → r.1.holds ρ' = true)

theorem mem_models_guard {c : Clause} {ρ : Assignment} :
    ρ ∈ (e.fresh.2.add [c ++ [-e.fresh.1]]).models M ↔
      ρ ∈ e.models M ∧ (e.fresh.1.holds ρ = true → ρ ∈ c.models) := by
  rw [models_add, models_fresh, Set.mem_inter_iff, Cnf.mem_models, List.forall_mem_singleton,
    mem_models_snoc, Lit.holds_neg]
  cases e.fresh.1.holds ρ <;> simp

theorem Valid.flags (h : e.Valid M) {q : Lit} (hq : q.var < e.nextVar) {c : Clause}
    (hc : ∀ l ∈ c, l.var < e.nextVar) :
    Flags M e q c ((e.fresh.2.add [c ++ [-e.fresh.1]]).and q e.fresh.1) := by
  have hFresh : e.fresh.1.var < e.nextVar + 1 := e.var_fresh.trans_lt (Nat.lt_succ_self _)
  have hGuard : (e.fresh.2.add [c ++ [-e.fresh.1]]).Valid M := by
    refine h.fresh.add fun d hd l hl => ?_
    rw [List.mem_singleton.mp hd, List.mem_append, List.mem_singleton] at hl
    rcases hl with hl | rfl
    · exact Nat.lt_succ_of_lt (hc l hl)
    · rw [Lit.var_neg]
      exact hFresh
  have hAnd := hGuard.and (Nat.lt_succ_of_lt hq) hFresh
  have hRaise : ∀ ρ ∈ e.models M, ∃ ρ' ∈ ((e.fresh.2.add [c ++ [-e.fresh.1]]).and q
      e.fresh.1).2.models M, AgreeBelow e.nextVar ρ ρ' ∧
        (q.holds ρ = true → ρ ∈ c.models → ((e.fresh.2.add [c ++ [-e.fresh.1]]).and q
          e.fresh.1).1.holds ρ' = true) := by
    classical
    intro ρ hρ
    -- the fresh literal is made to say whether the clause holds
    have hUpdate := AgreeBelow.update e.nextVar ρ (decide (ρ ∈ c.models))
    have hMem : Function.update ρ e.nextVar (decide (ρ ∈ c.models)) ∈
        (e.fresh.2.add [c ++ [-e.fresh.1]]).models M := by
      refine mem_models_guard.mpr ⟨h.update_mem hρ _, fun hHolds => ?_⟩
      rw [holds_fresh, Function.update_self, decide_eq_true_eq] at hHolds
      exact (Clause.mem_models_congr fun l hl => hUpdate l.var (hc l hl)).mp hHolds
    obtain ⟨ρ', hρ', hAgree⟩ := hAnd.lift _ hMem
    have hOld : AgreeBelow e.nextVar ρ ρ' := hUpdate.trans (hAgree.mono (Nat.le_succ _))
    refine ⟨ρ', hρ', hOld, fun hHolds hModels => ?_⟩
    rw [hAnd.holds ρ' hρ', ← hOld.holds hq, hHolds, ← hAgree.holds hFresh, holds_fresh,
      Function.update_self, decide_eq_true hModels, Bool.and_self]
  refine ⟨⟨hAnd.valid, (Nat.le_succ _).trans hAnd.le, ?_, ?_, hAnd.plain⟩, hAnd.bounded, ?_, hRaise⟩
  · exact fun ρ hρ => (mem_models_guard.mp (hAnd.subset hρ)).1
  · intro ρ hρ
    obtain ⟨ρ', hρ', hAgree, _⟩ := hRaise ρ hρ
    exact ⟨ρ', hρ', hAgree⟩
  · intro ρ hρ hHolds
    rw [hAnd.holds ρ hρ, Bool.and_eq_true] at hHolds
    exact ⟨hHolds.1, (mem_models_guard.mp (hAnd.subset hρ)).2 hHolds.2⟩

end Encoder

namespace Protection

open ManySteps

variable {c : Circuit} {M : Set Assignment} {e : Encoder} {u : Unrolling}

variable (c) in
/-- The literals of the golden steps have the values of a run without alarms. -/
def Portrays (ρ : Assignment) (next : List Lit) : List Step → Table Bool → Prop
  | [], _ => True
  | s :: steps, t =>
    let t' := t.step c (s.inputs.map (Lit.holds ρ))
    t'.alarm c = false ∧ s.observed.map (Lit.holds ρ) = t'.observed c ∧
      (steps = [] → next.map (Lit.holds ρ) = t'.nextState c) ∧
      Portrays ρ next steps (t'.advance c)

def inputValues (ρ : Assignment) (steps : List Step) : List (List Bool) :=
  steps.map fun s => s.inputs.map (Lit.holds ρ)

theorem Portrays.quiet {ρ : Assignment} {next : List Lit} {steps : List Step} {t : Table Bool}
    (h : Portrays c ρ next steps t) (f : Fault) (n : Nat) (tf : Table Bool) :
    ∀ o ∈ f.replayFrom c n t tf (inputValues ρ steps), o.golden.alarm c = false := by
  induction steps generalizing t n tf with
  | nil => exact List.forall_mem_nil _
  | cons s steps ih => exact List.forall_mem_cons.mpr ⟨h.1, ih h.2.2.2 _ _⟩

theorem unnoticed_inputValues_cons {reserved : Nat} {f : Fault} {n : Nat} {t tf : Table Bool}
    {ρ : Assignment} {s : Step} {steps : List Step} {o : Observation}
    (ho : f.observe c n (t, tf) (s.inputs.map (Lit.holds ρ)) = o) :
    Unnoticed c reserved (f.replayFrom c n t tf (inputValues ρ (s :: steps))) ↔
      o.faulty.alarm c = false ∧
        ((o.agrees c = false ∨ steps = [] ∧ o.converges c reserved = false) ∨
          Unnoticed c reserved (f.replayFrom c (n + 1) (o.golden.advance c) (o.faulty.advance c)
            (inputValues ρ steps))) := by
  subst ho
  rw [inputValues, List.map_cons, Fault.replayFrom_cons, unnoticed_cons,
    Fault.replayFrom_eq_nil_iff, List.map_eq_nil_iff]
  rfl

/-- The vectors of a step are as wide as those of the circuit and over variables below `n`. -/
structure StepBelow (c : Circuit) (n : Nat) (s : Step) : Prop where
  inputs_length : s.inputs.length = c.inputs.length
  inputs_lt : ∀ l ∈ s.inputs, l.var < n
  observed_length : s.observed.length = c.observed.length
  observed_lt : ∀ l ∈ s.observed, l.var < n

theorem StepBelow.mono {n m : Nat} {s : Step} (h : StepBelow c n s) (hm : n ≤ m) :
    StepBelow c m s :=
  ⟨h.inputs_length, fun l hl => lt_of_lt_of_le (h.inputs_lt l hl) hm, h.observed_length,
    fun l hl => lt_of_lt_of_le (h.observed_lt l hl) hm⟩

structure Unrolls (c : Circuit) (M : Set Assignment) (u : Unrolling) (e : Encoder) (k : Nat)
    (r : (List Step × List Lit) × Encoder) : Prop where
  valid : r.2.Valid M
  le : e.nextVar ≤ r.2.nextVar
  subset : r.2.models M ⊆ e.models M
  length : r.1.1.length = k
  steps : ∀ s ∈ r.1.1, StepBelow c r.2.nextVar s
  next_length : r.1.2.length = c.latches.length
  next_lt : ∀ l ∈ r.1.2, l.var < r.2.nextVar
  values : ∀ ρ ∈ r.2.models M, ∀ t, u.table.Values (Lit.holds ρ) t → Portrays c ρ r.1.2 r.1.1 t
  lift : ∀ ρ ∈ e.models M, ∀ t, u.table.Values (Lit.holds ρ) t → ∀ inputs : List (List Bool),
    inputs.length = k → (∀ xs ∈ inputs, xs.length = c.inputs.length) → ∀ f n tf,
      (∀ o ∈ Fault.replayFrom c f n t tf inputs, o.golden.alarm c = false) →
        ∃ ρ' ∈ r.2.models M, AgreeBelow e.nextVar ρ ρ' ∧ inputValues ρ' r.1.1 = inputs

theorem stepBelow_of_below {n : Nat} (h : u.table.Below n) :
    StepBelow c n ⟨u.inputs c, u.observed c⟩ :=
  ⟨List.length_map _, h.map_read c.inputs, List.length_map _, h.map_read c.observed⟩

theorem Quiets.unrolls {r : Unrolling × Encoder} (h : Quiets c M u e r) :
    Unrolls c M u e 1 (([⟨r.1.inputs c, r.1.observed c⟩], r.1.nextState c), r.2) := by
  refine ⟨h.valid, h.le, h.subset, rfl,
    List.forall_mem_singleton.mpr (stepBelow_of_below h.bounded), List.length_map _,
    h.bounded.nextState c, fun ρ hρ t ht => ?_,
    fun ρ hρ t ht inputs hInputs hWidth _ _ _ hLow => ?_⟩
  · have hev := evaluation_holds (h.valid.mem_pinned hρ)
    have hValues := h.values ρ hρ t ht
    exact ⟨(hValues.alarm hev c).symm.trans (h.low ρ hρ), hValues.observed hev c,
      fun _ => hValues.nextState hev c, trivial⟩
  · obtain ⟨xs, rfl⟩ := List.length_eq_one_iff.mp hInputs
    obtain ⟨ρ', hρ', hAgree, hRead⟩ := h.lift ρ hρ t ht xs (hWidth xs List.mem_cons_self)
      (hLow _ List.mem_cons_self)
    exact ⟨ρ', hρ', hAgree, congrArg (· :: []) hRead⟩

/-- A step before others. Only the last one shows its next state. -/
theorem Quiets.unrolls_cons {r : Unrolling × Encoder} {k : Nat}
    {rest : (List Step × List Lit) × Encoder} (h : Quiets c M u e r)
    (hu : u.table.Below e.nextVar) (hRest : Unrolls c M (r.1.advance c) r.2 (k + 1) rest) :
    Unrolls c M u e (k + 2)
      ((⟨r.1.inputs c, r.1.observed c⟩ :: rest.1.1, rest.1.2), rest.2) := by
  have hStep := stepBelow_of_below (c := c) h.bounded
  have hNext : ∀ ρ ∈ r.2.models M, ∀ t, u.table.Values (Lit.holds ρ) t →
      (r.1.advance c).table.Values (Lit.holds ρ)
        ((t.step c ((r.1.inputs c).map (Lit.holds ρ))).advance c) :=
    fun ρ hρ t ht => (h.values ρ hρ t ht).advance (evaluation_holds (h.valid.mem_pinned hρ)) c
  have hNonempty : rest.1.1 ≠ [] := List.length_pos_iff.mp (hRest.length ▸ Nat.succ_pos k)
  refine ⟨hRest.valid, h.le.trans hRest.le, hRest.subset.trans h.subset,
    congrArg (· + 1) hRest.length,
    List.forall_mem_cons.mpr ⟨hStep.mono hRest.le, hRest.steps⟩, hRest.next_length,
    hRest.next_lt, fun ρ hρ t ht => ?_, fun ρ hρ t ht inputs hInputs hWidth f n tf hLow => ?_⟩
  · have hρ' := hRest.subset hρ
    have hev := evaluation_holds (h.valid.mem_pinned hρ')
    have hValues := h.values ρ hρ' t ht
    exact ⟨(hValues.alarm hev c).symm.trans (h.low ρ hρ'), hValues.observed hev c,
      fun hNil => absurd hNil hNonempty, hRest.values ρ hρ _ (hNext ρ hρ' t ht)⟩
  · obtain _ | ⟨xs, inputs⟩ := inputs
    · cases hInputs
    obtain ⟨hFirst, hWidth⟩ := List.forall_mem_cons.mp hWidth
    obtain ⟨hAlarm, hLow⟩ := List.forall_mem_cons.mp hLow
    obtain ⟨ρ₁, hρ₁, hAgree₁, hRead⟩ := h.lift ρ hρ t ht xs hFirst hAlarm
    have hTable := hNext ρ₁ hρ₁ t (hu.values_congr hAgree₁ ht)
    rw [hRead] at hTable
    obtain ⟨ρ₂, hρ₂, hAgree₂, hReads⟩ := hRest.lift ρ₁ hρ₁ _ hTable inputs
      (Nat.succ.inj hInputs) hWidth f _ _ hLow
    refine ⟨ρ₂, hρ₂, hAgree₁.trans (hAgree₂.mono h.le), ?_⟩
    refine congr (congrArg List.cons ?_) hReads
    rw [← hRead]
    exact (hAgree₂.map_holds hStep.inputs_lt).symm

theorem unrolls_goldenSteps (h : e.Valid M) (hu : u.table.Below e.nextVar) (k : Nat) :
    Unrolls c M u e (k + 1) (goldenSteps c (k + 1) u e) := by
  induction k generalizing u e with
  | zero => exact (quiets_quietStep h hu).unrolls
  | succ k ih =>
    have hQuiet := quiets_quietStep (c := c) h hu
    exact hQuiet.unrolls_cons hu (ih hQuiet.valid (hQuiet.bounded.advance c))

/-- The golden run from an arbitrary state. -/
structure Starts (c : Circuit) (M : Set Assignment) (e : Encoder) (k : Nat)
    (r : Golden × Encoder) : Prop where
  valid : r.2.Valid M
  subset : r.2.models M ⊆ e.models M
  state_length : r.1.state.length = c.latches.length
  state_lt : ∀ l ∈ r.1.state, l.var < r.2.nextVar
  length : r.1.steps.length = k
  steps : ∀ s ∈ r.1.steps, StepBelow c r.2.nextVar s
  next_length : r.1.next.length = c.latches.length
  next_lt : ∀ l ∈ r.1.next, l.var < r.2.nextVar
  values : ∀ ρ ∈ r.2.models M, Portrays c ρ r.1.next r.1.steps
    ((Table.initial c).setState c (r.1.state.map (Lit.holds ρ)))
  lift : ∀ ρ ∈ e.models M, ∀ state : List Bool, state.length = c.latches.length →
    ∀ inputs : List (List Bool), inputs.length = k → (∀ xs ∈ inputs, xs.length = c.inputs.length) →
      ∀ latch, (∀ o ∈ flipReplay c latch state inputs, o.golden.alarm c = false) →
        ∃ ρ' ∈ r.2.models M, r.1.state.map (Lit.holds ρ') = state ∧
          inputValues ρ' r.1.steps = inputs

theorem starts_golden (h : e.Valid M) (k : Nat) : Starts c M e (k + 1) (golden c (k + 1) e) := by
  have hOpens := opens_openState (c := c) h
  have hUnrolls := unrolls_goldenSteps (c := c) hOpens.valid hOpens.bounded k
  have hState := hOpens.bounded.state c
  refine ⟨hUnrolls.valid, hUnrolls.subset.trans hOpens.subset, List.length_map _,
    fun l hl => lt_of_lt_of_le (hState l hl) hUnrolls.le, hUnrolls.length, hUnrolls.steps,
    hUnrolls.next_length, hUnrolls.next_lt, fun ρ hρ => ?_,
    fun ρ hρ state hWidth inputs hInputs hWidths latch hLow => ?_⟩
  · exact hUnrolls.values ρ hρ _ (hOpens.values ρ (hUnrolls.subset hρ))
  · obtain ⟨ρ₁, hρ₁, _, hMap⟩ := hOpens.reach ρ hρ state hWidth
    have hTable := hOpens.values ρ₁ hρ₁
    rw [hMap] at hTable
    obtain ⟨ρ₂, hρ₂, hAgree, hReads⟩ := hUnrolls.lift ρ₁ hρ₁ _ hTable inputs hInputs hWidths
      ⟨latch, 0⟩ 0 _ hLow
    refine ⟨ρ₂, hρ₂, ?_, hReads⟩
    rw [← hMap]
    exact (hAgree.map_holds hState).symm

variable (c) in
/-- A faulty step: the table, whether no alarm was raised so far, and a clause that says whether
the step differs from the golden one. -/
def compareStep (next : List Lit) (compared : Nat) (last : Bool) (quiet : Lit) (s : Step)
    (u : Unrolling) (e : Encoder) : (Unrolling × Lit × Clause) × Encoder :=
  let r := (u.setInputs c s.inputs).step c e
  let q := r.2.and quiet (-r.1.alarm c)
  let d := q.2.differsEither s.observed (r.1.observed c) last (next.take compared)
    ((r.1.nextState c).take compared)
  ((r.1, q.1, d.1), d.2)

structure Compares (c : Circuit) (M : Set Assignment) (e : Encoder) (u : Unrolling)
    (next : List Lit) (compared : Nat) (last : Bool) (quiet : Lit) (s : Step)
    (r : (Unrolling × Lit × Clause) × Encoder) : Prop extends Encoder.Extends M e r.2 where
  table_lt : r.1.1.table.Below r.2.nextVar
  quiet_lt : r.1.2.1.var < r.2.nextVar
  clause_lt : ∀ l ∈ r.1.2.2, l.var < r.2.nextVar
  values : ∀ ρ ∈ r.2.models M, ∀ t, u.table.Values (Lit.holds ρ) t →
    r.1.1.table.Values (Lit.holds ρ) (t.step c (s.inputs.map (Lit.holds ρ)))
  quiet : ∀ ρ ∈ r.2.models M, r.1.2.1.holds ρ = (quiet.holds ρ && !(r.1.1.alarm c).holds ρ)
  differs : ∀ ρ ∈ r.2.models M, ρ ∈ Clause.models r.1.2.2 ↔
    s.observed.map (Lit.holds ρ) ≠ (r.1.1.observed c).map (Lit.holds ρ) ∨
      last = true ∧ (next.take compared).map (Lit.holds ρ) ≠
        ((r.1.1.nextState c).take compared).map (Lit.holds ρ)

theorem compares_compareStep (h : e.Valid M) (hu : u.table.Below e.nextVar) {next : List Lit}
    (compared : Nat) (last : Bool) {quiet : Lit} {s : Step} (hQuiet : quiet.var < e.nextVar)
    (hs : StepBelow c e.nextVar s) (hLength : next.length = c.latches.length)
    (hNext : ∀ l ∈ next, l.var < e.nextVar) :
    Compares c M e u next compared last quiet s
      (compareStep c next compared last quiet s u e) := by
  have hTable : (u.setInputs c s.inputs).table.Below e.nextVar := hu.setAll c.inputs hs.inputs_lt
  have hStep := Unrolling.performs_step (c := c) h hTable
  have hAlarm := hStep.bounded.alarm (Encoder.two_le_nextVar _) c
  have hAnd := hStep.valid.and (lt_of_lt_of_le hQuiet hStep.le) ((Lit.var_neg _).trans_lt hAlarm)
  have hTable₂ := hStep.bounded.mono hAnd.le
  have hOld := hStep.le.trans hAnd.le
  have hWidths : (next.take compared).length = ((((u.setInputs c s.inputs).step c e).1.nextState
      c).take compared).length := by
    rw [List.length_take, List.length_take, hLength]
    exact congrArg (min compared) (List.length_map _).symm
  have hDiffers := hAnd.valid.differsEither last
    (hs.observed_length.trans (List.length_map _).symm)
    (fun l hl => lt_of_lt_of_le (hs.observed_lt l hl) hOld) (hTable₂.map_read c.observed)
    hWidths (fun l hl => lt_of_lt_of_le (hNext l (List.mem_of_mem_take hl)) hOld)
    (fun l hl => hTable₂.nextState c l (List.mem_of_mem_take hl))
  refine ⟨(hStep.toExtends.trans hAnd.toExtends).trans hDiffers.toExtends,
    hTable₂.mono hDiffers.le, lt_of_lt_of_le hAnd.bounded hDiffers.le, hDiffers.bounded,
    fun ρ hρ t ht => ?_, fun ρ hρ => ?_, hDiffers.models⟩
  · exact hStep.values ρ (hAnd.subset (hDiffers.subset hρ)) _ (ht.setAll c.inputs _)
  · exact (hAnd.holds ρ (hDiffers.subset hρ)).trans (congrArg _ (Lit.holds_neg _ _))

section Compared

variable {reserved : Nat} {next : List Lit} {last : Bool} {quiet : Lit} {s : Step}
  {r : (Unrolling × Lit × Clause) × Encoder} {ρ : Assignment} {t : Table Bool}

theorem Compares.quiet_iff {compared : Nat} (h : Compares c M e u next compared last quiet s r)
    (hρ : ρ ∈ r.2.models M) (ht : u.table.Values (Lit.holds ρ) t) :
    r.1.2.1.holds ρ = true ↔ quiet.holds ρ = true ∧
      (t.step c (s.inputs.map (Lit.holds ρ))).alarm c = false := by
  have hev := evaluation_holds (h.valid.mem_pinned hρ)
  have hAlarm : (r.1.1.alarm c).holds ρ = _ := (h.values ρ hρ t ht).alarm hev c
  rw [h.quiet ρ hρ, hAlarm, Bool.and_eq_true, Bool.not_eq_true']

theorem Compares.differs_iff
    (h : Compares c M e u next (c.latches.length - reserved) last quiet s r)
    (hρ : ρ ∈ r.2.models M) {tf : Table Bool} (htf : u.table.Values (Lit.holds ρ) tf)
    {o : Observation} (ho : o.faulty = tf.step c (s.inputs.map (Lit.holds ρ)))
    (hObserved : s.observed.map (Lit.holds ρ) = o.golden.observed c)
    (hNext : last = true → next.map (Lit.holds ρ) = o.golden.nextState c) :
    ρ ∈ Clause.models r.1.2.2 ↔
      o.agrees c = false ∨ last = true ∧ o.converges c reserved = false := by
  have hev := evaluation_holds (h.valid.mem_pinned hρ)
  have hValues := h.values ρ hρ tf htf
  rw [← ho] at hValues
  rw [h.differs ρ hρ, List.map_take, List.map_take]
  exact Observation.differs_iff hObserved (hValues.observed hev c) hNext (hValues.nextState hev c)

/-- What a step says about the observation of a replay. -/
structure Shows (c : Circuit) (reserved : Nat) (quiet : Lit) (last : Prop)
    (r : Unrolling × Lit × Clause) (ρ : Assignment) (o : Observation) : Prop where
  quiet_iff : r.2.1.holds ρ = true ↔ quiet.holds ρ = true ∧ o.faulty.alarm c = false
  differs_iff : ρ ∈ r.2.2.models ↔
    o.agrees c = false ∨ last ∧ o.converges c reserved = false
  values : (r.1.advance c).table.Values (Lit.holds ρ) (o.faulty.advance c)

theorem Compares.shows {steps : List Step}
    (h : Compares c M e u next (c.latches.length - reserved) steps.isEmpty quiet s r)
    (hρ : ρ ∈ r.2.models M) {f : Fault} {n : Nat} {tf : Table Bool}
    (hTable : u.table.Values (Lit.holds ρ) (f.strike c n tf))
    (hPortrays : Portrays c ρ next (s :: steps) t) :
    Shows c reserved quiet (steps = []) r.1 ρ
      (f.observe c n (t, tf) (s.inputs.map (Lit.holds ρ))) := by
  have hev := evaluation_holds (h.valid.mem_pinned hρ)
  refine ⟨h.quiet_iff hρ hTable, ?_, (h.values ρ hρ _ hTable).advance hev c⟩
  rw [← List.isEmpty_iff]
  exact h.differs_iff hρ hTable rfl hPortrays.2.1
    fun hLast => hPortrays.2.2.1 (List.isEmpty_iff.mp hLast)

end Compared

/-- One step of the faulty run and the literal that is raised for it, then the others. -/
theorem faultySteps_cons {next : List Lit} {compared : Nat} {s : Step} {steps : List Step}
    {quiet : Lit} {r : (Unrolling × Lit × Clause) × Encoder} {error : Lit × Encoder}
    (hr : compareStep c next compared steps.isEmpty quiet s u e = r)
    (hError : (r.2.fresh.2.add [r.1.2.2 ++ [-r.2.fresh.1]]).and r.1.2.1 r.2.fresh.1 = error) :
    faultySteps c next compared (s :: steps) quiet u e =
      (error.1 :: (faultySteps c next compared steps r.1.2.1 (r.1.1.advance c) error.2).1,
        (faultySteps c next compared steps r.1.2.1 (r.1.1.advance c) error.2).2) := by
  subst hError hr
  rw [faultySteps, compareStep]
  rcases (u.setInputs c s.inputs).step c e with ⟨u₁, e₁⟩
  dsimp only
  rcases e₁.and quiet (-u₁.alarm c) with ⟨q, e₂⟩
  dsimp only
  rw [Encoder.differsEither]
  rcases e₂.differs s.observed (u₁.observed c) with ⟨outputs, e₃⟩
  cases steps <;> rfl

/-- The faulty run implies no more than it shows, and some assignment makes it say so. -/
structure Detects (c : Circuit) (M : Set Assignment) (e : Encoder) (u : Unrolling)
    (reserved : Nat) (next : List Lit) (quiet : Lit) (steps : List Step)
    (r : List Lit × Encoder) : Prop extends Encoder.Extends M e r.2 where
  bounded : ∀ l ∈ r.1, l.var < r.2.nextVar
  sound : ∀ ρ ∈ r.2.models M, ∀ latch n t tf,
    u.table.Values (Lit.holds ρ) (Fault.strike c ⟨latch, 0⟩ n tf) → Portrays c ρ next steps t →
    (∃ l ∈ r.1, l.holds ρ = true) → quiet.holds ρ = true ∧
      Unnoticed c reserved (Fault.replayFrom c ⟨latch, 0⟩ n t tf (inputValues ρ steps))
  raise : ∀ ρ ∈ e.models M, ∃ ρ' ∈ r.2.models M, AgreeBelow e.nextVar ρ ρ' ∧ ∀ latch n t tf,
    u.table.Values (Lit.holds ρ') (Fault.strike c ⟨latch, 0⟩ n tf) → Portrays c ρ' next steps t →
    quiet.holds ρ' = true →
      Unnoticed c reserved (Fault.replayFrom c ⟨latch, 0⟩ n t tf (inputValues ρ' steps)) →
        ∃ l ∈ r.1, l.holds ρ' = true

theorem Detects.cons {reserved : Nat} {next : List Lit} {quiet : Lit} {s : Step}
    {steps : List Step} {r : (Unrolling × Lit × Clause) × Encoder} {error : Lit × Encoder}
    {rest : List Lit × Encoder}
    (hCompares : Compares c M e u next (c.latches.length - reserved) steps.isEmpty quiet s r)
    (hFlags : Encoder.Flags M r.2 r.1.2.1 r.1.2.2 error)
    (hRest : Detects c M error.2 (r.1.1.advance c) reserved next r.1.2.1 steps rest) :
    Detects c M e u reserved next quiet (s :: steps) (error.1 :: rest.1, rest.2) := by
  refine ⟨hCompares.toExtends.trans (hFlags.toExtends.trans hRest.toExtends), ?_, ?_, ?_⟩
  · exact List.forall_mem_cons.mpr ⟨lt_of_lt_of_le hFlags.bounded hRest.le, hRest.bounded⟩
  · intro ρ hρ latch n t tf hTable hPortrays hErrors
    have hShows := hCompares.shows (hFlags.subset (hRest.subset hρ)) hTable hPortrays
    rw [unnoticed_inputValues_cons rfl]
    obtain ⟨l, hl, hHolds⟩ := hErrors
    rcases List.mem_cons.mp hl with rfl | hl
    · obtain ⟨hQuiet, hClause⟩ := hFlags.sound ρ (hRest.subset hρ) hHolds
      obtain ⟨hOld, hLow⟩ := hShows.quiet_iff.mp hQuiet
      exact ⟨hOld, hLow, .inl (hShows.differs_iff.mp hClause)⟩
    · obtain ⟨hQuiet, hUnnoticed⟩ := hRest.sound ρ hρ latch (n + 1) _ _ hShows.values
        hPortrays.2.2.2 ⟨l, hl, hHolds⟩
      obtain ⟨hOld, hLow⟩ := hShows.quiet_iff.mp hQuiet
      exact ⟨hOld, hLow, .inr hUnnoticed⟩
  · intro ρ hρ
    obtain ⟨ρ₁, hρ₁, hAgree₁⟩ := hCompares.lift ρ hρ
    obtain ⟨ρ₂, hρ₂, hAgree₂, hRaise⟩ := hFlags.raise ρ₁ hρ₁
    obtain ⟨ρ₃, hρ₃, hAgree₃, hRaises⟩ := hRest.raise ρ₂ hρ₂
    have hAgree := hAgree₂.trans (hAgree₃.mono hFlags.le)
    refine ⟨ρ₃, hρ₃, hAgree₁.trans (hAgree.mono hCompares.le), ?_⟩
    intro latch n t tf hTable hPortrays hOld hUnnoticed
    have hShows := hCompares.shows (hFlags.subset (hRest.subset hρ₃)) hTable hPortrays
    obtain ⟨hLow, hDiffers⟩ := (unnoticed_inputValues_cons rfl).mp hUnnoticed
    have hQuiet := hShows.quiet_iff.mpr ⟨hOld, hLow⟩
    rcases hDiffers with hDiffers | hLater
    · -- the literal was raised before the later steps were encoded
      refine ⟨error.1, List.mem_cons_self, ?_⟩
      rw [← hAgree₃.holds hFlags.bounded]
      refine hRaise ((hAgree.holds hCompares.quiet_lt).trans hQuiet) ?_
      exact (Clause.mem_models_congr fun l hl => hAgree l.var (hCompares.clause_lt l hl)).mpr
        (hShows.differs_iff.mpr hDiffers)
    · obtain ⟨l, hl, hHolds⟩ := hRaises latch (n + 1) _ _ hShows.values hPortrays.2.2.2 hQuiet
        hLater
      exact ⟨l, List.mem_cons_of_mem _ hl, hHolds⟩

theorem detects_faultySteps (reserved : Nat) {next : List Lit} {quiet : Lit} {steps : List Step}
    (h : e.Valid M) (hu : u.table.Below e.nextVar) (hQuiet : quiet.var < e.nextVar)
    (hSteps : ∀ s ∈ steps, StepBelow c e.nextVar s) (hLength : next.length = c.latches.length)
    (hNext : ∀ l ∈ next, l.var < e.nextVar) :
    Detects c M e u reserved next quiet steps
      (faultySteps c next (c.latches.length - reserved) steps quiet u e) := by
  induction steps generalizing u e quiet with
  | nil =>
    refine ⟨.refl h, List.forall_mem_nil _, fun ρ _ latch n t tf _ _ hError => ?_,
      fun ρ hρ => ⟨ρ, hρ, .refl _ _, fun latch n t tf _ _ _ hUnnoticed => ?_⟩⟩
    · obtain ⟨l, hl, _⟩ := hError
      cases hl
    · exact absurd hUnnoticed not_unnoticed_nil
  | cons s steps ih =>
    obtain ⟨hs, hSteps⟩ := List.forall_mem_cons.mp hSteps
    have hCompares := compares_compareStep (M := M) h hu (c.latches.length - reserved)
      steps.isEmpty hQuiet hs hLength hNext
    have hFlags := hCompares.valid.flags hCompares.quiet_lt hCompares.clause_lt
    have hLe := hCompares.le.trans hFlags.le
    rw [faultySteps_cons rfl rfl]
    exact .cons hCompares hFlags (ih hFlags.valid
      ((hCompares.table_lt.mono hFlags.le).advance c) (lt_of_lt_of_le hCompares.quiet_lt hFlags.le)
      (fun s hs => (hSteps s hs).mono hLe) (fun l hl => lt_of_lt_of_le (hNext l hl) hLe))

end Protection

end SoftError

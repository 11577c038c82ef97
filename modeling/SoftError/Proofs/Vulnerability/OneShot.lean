import SoftError.Proofs.Vulnerability.Incremental
import SoftError.Proofs.Vulnerability.OneShotTracks

/-!
# Exactness of the one-shot search

As long as the inputs are definite, the golden run is known without a solver, and a flip that
shows right away gives a trace. Otherwise the first step whose check has a model gives one, and
a latch without such a step has no error. The search can only fail in the solver.
-/

namespace SoftError.Vulnerability.OneShot

section Concrete

variable {c : Circuit} {past : List (List Level)} {levels : List Level} {alarmed : Bool}
  {t : Table Bool} {k : Component} {s : Stimulus}

/-- The golden run on definite steps. -/
structure Concrete (c : Circuit) (steps : List (List Level)) (alarmed : Bool) (t : Table Bool) :
    Prop where
  definite : ∀ vs ∈ steps, ∀ v ∈ vs, v ≠ .free
  table : t = c.run (readings steps)
  quiet : alarmed = false → ∀ (f : Fault), ∀ o ∈ f.replay c (readings steps),
    o.golden.alarm c = false

theorem readings_snoc (past : List (List Level)) (levels : List Level) :
    readings (past ++ [levels]) = readings past ++ [levels.map Level.toBool] :=
  List.map_append

theorem concrete_initial (c : Circuit) : Concrete c [] false (Table.initial c) :=
  ⟨List.forall_mem_nil _, rfl, fun _ _ => List.forall_mem_nil _⟩

theorem Concrete.snoc (h : Concrete c past alarmed t) (hLevels : ∀ v ∈ levels, v ≠ .free) :
    Concrete c (past ++ [levels])
      (alarmed || (t.step c (levels.map Level.toBool)).alarm c)
      ((t.step c (levels.map Level.toBool)).advance c) := by
  refine ⟨?_, ?_, fun hQuiet f => ?_⟩
  · exact List.forall_mem_append.mpr ⟨h.definite, List.forall_mem_singleton.mpr hLevels⟩
  · rw [readings_snoc, Circuit.run_snoc, ← h.table]
  · obtain ⟨hPast, hStep⟩ := Bool.or_eq_false_iff.mp hQuiet
    rw [readings_snoc, Fault.replay_snoc]
    refine List.forall_mem_append.mpr ⟨h.quiet hPast f, List.forall_mem_singleton.mpr ?_⟩
    rw [Fault.observe, Fault.run_fst, ← h.table]
    exact hStep

theorem settled_eq_some {r : Runs} (h : r.settled c levels = some t) :
    (∀ v ∈ levels, v ≠ .free) ∧
      ∃ u, r.concrete = some u ∧ t = u.step c (levels.map Level.toBool) := by
  rw [Runs.settled] at h
  split at h
  · cases h
  · rename_i hDefinite
    obtain ⟨u, hu, rfl⟩ := Option.map_eq_some_iff.mp h
    refine ⟨fun v hv hFree => hDefinite ?_, u, hu, rfl⟩
    exact List.any_eq_true.mpr ⟨v, hv, decide_eq_true hFree⟩

/-- A flip that is visible at once is an error, as there has been no alarm before. -/
theorem Concrete.firstSilent (h : Concrete c past false t)
    (hVisible : visible c k (t.step c (levels.map Level.toBool)) = true) :
    FirstSilent c ((⟨k.index, past.length⟩ : Fault).replay c (readings (past ++ [levels])))
      past.length := by
  obtain ⟨f, hf⟩ : ∃ f : Fault, f = ⟨k.index, past.length⟩ := ⟨_, rfl⟩
  rw [← hf, readings_snoc]
  have hLength := length_readings past
  have hTime : (readings past).length = f.time := by rw [hf, hLength]
  have hLast := f.getElem?_replay_snoc c (readings past) (levels.map Level.toBool)
  have hSame : ∀ i < past.length, ∀ o,
      (f.replay c (readings past ++ [levels.map Level.toBool]))[i]? = some o →
        o.golden = o.faulty := fun i hi o ho => f.golden_eq_faulty c ho (.inl (hf ▸ hi))
  -- The latch may as well be inverted once the gates are evaluated.
  have hFlipped : ∀ v, (((t.step c (levels.map Level.toBool)).flip c k.index).settle c).get v =
      (f.observe c (readings past).length (f.run c (readings past))
        (levels.map Level.toBool)).faulty.get v := by
    intro v
    rw [Table.get_settle_flip_step, Fault.observe, ← f.run_same c (.inl hTime.le), f.run_fst,
      ← h.table, Fault.strike, if_pos hTime, hf]
  rw [visible, Bool.and_eq_true, Bool.not_eq_true', decide_eq_true_eq,
    Table.alarm_congr hFlipped, Table.observed_congr hFlipped] at hVisible
  obtain ⟨hAlarm, hWrong⟩ := hVisible
  rw [hLength] at hLast hAlarm hWrong
  refine ⟨⟨fun i hi o ho => ?_, _, hLast, ?_⟩, fun i hi o ho => ?_⟩
  · rcases Nat.lt_or_eq_of_le hi with hi | rfl
    · rw [← hSame i hi o ho]
      rw [Fault.replay_snoc,
        List.getElem?_append_left (by rwa [Fault.length_replay, hLength])] at ho
      exact h.quiet rfl f o (List.mem_of_getElem? ho)
    · rw [hLast] at ho
      cases ho
      exact hAlarm
  · rw [Observation.agrees, decide_eq_false_iff_not, Fault.observe, Fault.run_fst, ← h.table]
    exact fun hEq => hWrong hEq.symm
  · rw [Observation.agrees, hSame i hi o ho, decide_eq_true rfl]

theorem Concrete.shows (h : Concrete c past false t) (hLevels : ∀ v ∈ levels, v ≠ .free)
    (hSteps : s.steps.take (past.length + 1) = past ++ [levels])
    (hWidth : s.width = c.inputs.length)
    (hVisible : visible c k (t.step c (levels.map Level.toBool)) = true) :
    Shows c s.steps k ⟨k.signal, past.length, past.length, s.bools.take (past.length + 1)⟩ := by
  have hFirst := h.firstSilent hVisible
  have hInputs : s.bools.take (past.length + 1) = readings (past ++ [levels]) := by
    rw [← hSteps]
    exact List.map_take.symm
  have hLength : (past ++ [levels]).length = past.length + 1 := List.length_append
  have hAdmits := admitsSteps_readings (past ++ [levels])
  have hErrs := hFirst.toSilent.errs hAdmits
    (fun vs hvs => (s.width_eq vs (List.mem_of_mem_take (hSteps ▸ hvs))).trans hWidth)
    (h.snoc hLevels).definite
  rw [List.take_of_length_le hLength.le, List.take_of_length_le
    ((length_readings _).trans hLength).le] at hErrs
  rw [hInputs]
  refine ⟨rfl, le_rfl, (length_readings _).trans hLength, ?_, ?_, hFirst.first⟩
  · rwa [hSteps]
  · rwa [hSteps]

end Concrete

section Grows

variable {c : Circuit} {t : Transition} {past : List (List Level)} {levels : List Level}
  {k : Component} {r r' : Runs} {formula : Cnf} {n : Names} {s : Stimulus}
  (h : Grows c t past levels k r formula n r')
include h

theorem Grows.length : r'.flips.length = past.length + 1 := by
  have hLength := (h.tracks none).length
  rwa [List.length_append] at hLength

theorem Grows.concrete (hConcrete : ∀ u, r.concrete = some u → Concrete c past r.alarmed u)
    {u : Table Bool} (hu : (r'.advance c t n (r.settled c levels)).concrete = some u) :
    Concrete c (past ++ [levels]) (r'.advance c t n (r.settled c levels)).alarmed u := by
  obtain ⟨v, hv, rfl⟩ := Option.map_eq_some_iff.mp hu
  obtain ⟨hLevels, w, hw, rfl⟩ := settled_eq_some hv
  have hNext := (hConcrete w hw).snoc hLevels
  rwa [Runs.advance, hv, h.alarmed]

/-- A model is read as the trace of the fault that it chooses. -/
theorem Grows.shows (hImmune : Immune c past k.index)
    (hSteps : s.steps.take (past.length + 1) = past ++ [levels]) {ρ : Assignment}
    (hρ : ρ ∈ formula.models) :
    Shows c s.steps k (r'.trace k s ⟨modelLits ρ (r'.flips ++ r'.opened)⟩) := by
  obtain ⟨hMem, hWrong⟩ := h.wrong ρ hρ
  have hPinned : ρ ∈ pinned := (h.tracks none).valid.pinned hMem
  have hFollows := (h.tracks none).sound ρ hMem
  have hAdmits : AdmitsSteps (past ++ [levels]) (r'.values ρ) := hFollows.admits
  obtain ⟨time, _, hPicks⟩ := exists_picks_numbered hFollows.atMostOnce
  have hErrs := hWrong time hPicks
  have hTime : time < r'.flips.length := by
    rw [h.length]
    exact lt_of_lt_of_eq hErrs.strikes.1 (hAdmits.length_eq.symm.trans List.length_append)
  have hIdx := findIdx?_of_picks (p := Model.isTrue ⟨modelLits ρ (r'.flips ++ r'.opened)⟩)
    (fun l hl => isTrue_modelLits hPinned
      (.inr (List.mem_map_of_mem (List.mem_append_left _ hl)))) hPicks hTime
  have hPrefix : (s.take r'.flips.length).Admits (r'.values ρ) := by
    change AdmitsSteps (s.steps.take r'.flips.length) _
    rwa [h.length, hSteps]
  have hSettle := Stimulus.bools_settle hPrefix
    (m := ⟨modelLits ρ (r'.flips ++ r'.opened)⟩) fun ls hls l hl =>
    value_modelLits hPinned (((h.tracks none).known ls hls l hl).imp_right fun hOpened => by
      rw [List.map_append]
      exact List.mem_append_right _ hOpened)
  have hTrace : r'.trace k s ⟨modelLits ρ (r'.flips ++ r'.opened)⟩ =
      ⟨k.signal, time, past.length, r'.values ρ⟩ := by
    rw [Runs.trace, hIdx, hSettle, h.length, Nat.add_sub_cancel]
    rfl
  rw [hTrace]
  exact hImmune.shows hSteps hAdmits hErrs

end Grows

section Search

open Deciding ExactProcedure

variable {c : Circuit} {t : Transition} {past : List (List Level)} {k : Component} {r : Runs}
  {s : Stimulus} {σ : Type} [DecisionProcedure σ] {st st' : σ}

theorem onSteps_cons {levels : List Level} {rest : List (List Level)} {formula : Cnf} {n : Names}
    {r' : Runs} (hStep : r.step c t k levels = .ok (formula, n, r')) :
    (onSteps c t k s (levels :: rest) r : Deciding σ AnalysisError (Option ErrorTrace)) =
      if !r.alarmed && (r.settled c levels).any (visible c k) then
        return some ⟨k.signal, r.flips.length, r.flips.length, s.bools.take (r.flips.length + 1)⟩
      else (do
        match ← (DecisionProcedure.solve formula [] (r'.flips ++ r'.opened)).adapt .solver with
        | .sat model => return some (r'.trace k s ⟨model⟩)
        | .unsat _ => onSteps c t k s rest (r'.advance c t n (r.settled c levels))) := by
  simp only [onSteps, hStep]
  rfl

/-- The induction is on the steps that are left; the formula tracks those before. -/
theorem onSteps_returns [ExactProcedure σ] {rest : List (List Level)}
    {found : Option ErrorTrace} (ht : Transition.ofCircuit c = .ok t)
    (hSteps : s.steps = past ++ rest) (hWidth : s.width = c.inputs.length)
    (h : Tracks c past k r) (hConcrete : ∀ u, r.concrete = some u → Concrete c past r.alarmed u)
    (hImmune : Immune c past k.index)
    (hReturns : Returns (onSteps c t k s rest r) st found st') :
    (∀ trace, found = some trace → Shows c s.steps k trace) ∧
      (found = none → Immune c s.steps k.index) := by
  induction rest generalizing past r st with
  | nil =>
    obtain ⟨rfl, rfl⟩ := returns_pure.mp hReturns
    rw [hSteps, List.append_nil]
    exact ⟨nofun, fun _ => hImmune⟩
  | cons levels rest ih =>
    have hLength : levels.length = c.inputs.length :=
      (s.width_eq levels (hSteps ▸ by simp)).trans hWidth
    have hTake : s.steps.take (past.length + 1) = past ++ [levels] := by
      rw [hSteps, List.take_append, List.take_of_length_le (Nat.le_succ _)]
      simp
    obtain ⟨formula, n, r', hStep, hGrows⟩ := h.step ht hLength
    rw [onSteps_cons hStep] at hReturns
    split at hReturns
    · rename_i hVisible
      obtain ⟨rfl, rfl⟩ := returns_pure.mp hReturns
      obtain ⟨hAlarmed, hAny⟩ := Bool.and_eq_true_iff.mp hVisible
      obtain ⟨_, hSettled, hVisible⟩ := (Option.any_eq_true _ _).mp hAny
      obtain ⟨hLevels, u, hu, rfl⟩ := settled_eq_some hSettled
      have hGolden := hConcrete u hu
      rw [(Bool.not_eq_true' _).mp hAlarmed] at hGolden
      refine ⟨fun trace hSome => ?_, nofun⟩
      rw [← Option.some.inj hSome, h.length]
      exact hGolden.shows hLevels hTake hWidth hVisible
    · obtain ⟨answer, st₁, hSolve, hReturns⟩ := returns_bind.mp hReturns
      obtain ⟨_, hRight⟩ := solve_returns (returns_adapt.mp hSolve)
      cases answer with
      | sat model =>
        obtain ⟨ρ, hρ, _, rfl⟩ := hRight
        obtain ⟨rfl, rfl⟩ := returns_pure.mp hReturns
        refine ⟨fun trace hSome => ?_, nofun⟩
        rw [← Option.some.inj hSome]
        exact hGrows.shows hImmune hTake hρ
      | unsat core =>
        have hNext : Immune c (past ++ [levels]) k.index := by
          refine hImmune.snoc fun time inputs hAdmits hErrs => ?_
          obtain ⟨ρ, hρ⟩ := hGrows.found time inputs hAdmits hErrs
          exact hRight ρ hρ (List.forall_mem_nil _)
        exact ih (by rw [hSteps, List.append_assoc]; rfl) (hGrows.tracks _)
          (fun u hu => hGrows.concrete hConcrete hu) hNext hReturns

/-- All that can fail is the solver. -/
theorem onSteps_fails {rest : List (List Level)} {e : AnalysisError}
    (ht : Transition.ofCircuit c = .ok t) (hSteps : s.steps = past ++ rest)
    (hWidth : s.width = c.inputs.length) (h : Tracks c past k r)
    (hFails : Fails (onSteps c t k s rest r) st e) : ∃ e', e = .solver e' := by
  induction rest generalizing past r st with
  | nil => exact absurd hFails not_fails_pure
  | cons levels rest ih =>
    have hLength : levels.length = c.inputs.length :=
      (s.width_eq levels (hSteps ▸ by simp)).trans hWidth
    obtain ⟨formula, n, r', hStep, hGrows⟩ := h.step ht hLength
    rw [onSteps_cons hStep] at hFails
    split at hFails
    · exact absurd hFails not_fails_pure
    · obtain hSolve | ⟨answer, st₁, _, hFails⟩ := fails_bind.mp hFails
      · exact hSolve.of_adapt
      · cases answer with
        | sat model => exact absurd hFails not_fails_pure
        | unsat core => exact ih (by rw [hSteps, List.append_assoc]; rfl) (hGrows.tracks _) hFails

variable {stimuli : List Stimulus} {ks : List Component}

theorem onStimuli_returns [ExactProcedure σ] {found : Option ErrorTrace}
    (ht : Transition.ofCircuit c = .ok t) (hWidth : ∀ s ∈ stimuli, s.width = c.inputs.length)
    (hReturns : Returns (onStimuli c t k stimuli) st found st') :
    (∀ trace, found = some trace → ∃ s ∈ stimuli, Shows c s.steps k trace) ∧
      (found = none → ∀ s ∈ stimuli, Immune c s.steps k.index) := by
  induction stimuli generalizing st with
  | nil =>
    obtain ⟨rfl, rfl⟩ := returns_pure.mp hReturns
    exact ⟨nofun, fun _ => List.forall_mem_nil _⟩
  | cons s stimuli ih =>
    obtain ⟨hFirst, hWidth⟩ := List.forall_mem_cons.mp hWidth
    obtain ⟨here, st₁, hHere, hReturns⟩ := returns_bind.mp hReturns
    have hSearch := onSteps_returns ht (show s.steps = [] ++ s.steps from rfl) hFirst
      (tracks_initial c k) (fun u hu => Option.some.inj hu ▸ concrete_initial c)
      (immune_nil c k.index) hHere
    cases here with
    | some trace =>
      obtain ⟨rfl, rfl⟩ := returns_pure.mp hReturns
      exact ⟨fun trace hSome => ⟨s, List.mem_cons_self, hSearch.1 trace hSome⟩, nofun⟩
    | none =>
      obtain ⟨hShows, hNone⟩ := ih hWidth hReturns
      refine ⟨fun trace hSome => ?_, fun hEq => ?_⟩
      · obtain ⟨s', hs', hShow⟩ := hShows trace hSome
        exact ⟨s', List.mem_cons_of_mem s hs', hShow⟩
      · exact List.forall_mem_cons.mpr ⟨hSearch.2 rfl, hNone hEq⟩

theorem onStimuli_fails {e : AnalysisError} (ht : Transition.ofCircuit c = .ok t)
    (hWidth : ∀ s ∈ stimuli, s.width = c.inputs.length)
    (hFails : Fails (onStimuli c t k stimuli) st e) : ∃ e', e = .solver e' := by
  induction stimuli generalizing st with
  | nil => exact absurd hFails not_fails_pure
  | cons s stimuli ih =>
    obtain ⟨hFirst, hWidth⟩ := List.forall_mem_cons.mp hWidth
    obtain hHere | ⟨here, st₁, _, hFails⟩ := fails_bind.mp hFails
    · exact onSteps_fails ht (show s.steps = [] ++ s.steps from rfl) hFirst (tracks_initial c k)
        hHere
    · cases here with
      | some trace => exact absurd hFails not_fails_pure
      | none => exact ih hWidth hFails

theorem onLatches_returns [ExactProcedure σ] {ts : List ErrorTrace}
    (ht : Transition.ofCircuit c = .ok t) (hWidth : ∀ s ∈ stimuli, s.width = c.inputs.length)
    (hNodup : (ks.map Component.signal).Nodup)
    (hReturns : Returns (onLatches c t stimuli ks) st ts st') :
    Incremental.Exact c stimuli ks ts := by
  induction ks generalizing st ts with
  | nil =>
    obtain ⟨rfl, rfl⟩ := returns_pure.mp hReturns
    exact .nil (List.forall_mem_nil _)
  | cons k ks ih =>
    rw [List.map_cons, List.nodup_cons] at hNodup
    obtain ⟨found, st₁, hFound, hReturns⟩ := returns_bind.mp hReturns
    obtain ⟨more, st₂, hMore, hReturns⟩ := returns_bind.mp hReturns
    obtain ⟨rfl, rfl⟩ := returns_pure.mp hReturns
    obtain ⟨hShows, hNone⟩ := onStimuli_returns ht hWidth hFound
    refine (ih hNodup.2 hMore).cons (fun trace hSome => ?_) hNone hNodup.1
    obtain ⟨s, hs, hShow⟩ := hShows trace hSome
    exact ⟨hShow.latch, s, hs, hShow⟩

theorem onLatches_fails {e : AnalysisError} (ht : Transition.ofCircuit c = .ok t)
    (hWidth : ∀ s ∈ stimuli, s.width = c.inputs.length)
    (hFails : Fails (onLatches c t stimuli ks) st e) : ∃ e', e = .solver e' := by
  induction ks generalizing st with
  | nil => exact absurd hFails not_fails_pure
  | cons k ks ih =>
    obtain hHere | ⟨found, st₁, _, hFails⟩ := fails_bind.mp hFails
    · exact onStimuli_fails ht hWidth hHere
    · obtain hMore | ⟨more, st₂, _, hFails⟩ := fails_bind.mp hFails
      · exact ih hMore
      · exact absurd hFails not_fails_pure

theorem analyze_returns [ExactProcedure σ] {o : Options} {report : Report}
    (hReturns : Returns (analyze c o stimuli) st report st') :
    ∃ checked ts, checkedLatches c o.reserved = .ok checked ∧
      Incremental.Exact c stimuli checked ts ∧ report = .ofTraces o ts := by
  obtain ⟨_, hStimuli, hReturns⟩ := returns_ofExcept_bind.mp hReturns
  obtain ⟨t, ht, hReturns⟩ := returns_ofExcept_bind.mp hReturns
  obtain ⟨checked, hChecked, hReturns⟩ := returns_ofExcept_bind.mp hReturns
  obtain ⟨ts, st₁, hSearch, hReturns⟩ := returns_bind.mp hReturns
  obtain ⟨rfl, rfl⟩ := returns_pure.mp hReturns
  refine ⟨checked, ts, hChecked, ?_, rfl⟩
  exact onLatches_returns (eq_ok_of_mapError ht)
    (fun s hs => (checkStimuli_eq_ok hStimuli s hs).1) (checkedLatches_signals_nodup hChecked)
    hSearch

/-- Whatever the procedure answers, no variable of a formula is left without a name. -/
theorem not_analyze_fails_formula {o : Options} (e : FormulaError) :
    ¬ Fails (analyze c o stimuli) st (.formula e) := by
  intro hFails
  obtain hStimuli | ⟨_, hStimuli, hFails⟩ := fails_ofExcept_bind.mp hFails
  · exact checkStimuliFrom_ne_formula e hStimuli
  obtain hCircuit | ⟨t, ht, hFails⟩ := fails_ofExcept_bind.mp hFails
  · cases h : Transition.ofCircuit c <;> rw [h] at hCircuit <;> cases hCircuit
  obtain hChecked | ⟨checked, _, hFails⟩ := fails_ofExcept_bind.mp hFails
  · rw [checkedLatches] at hChecked
    split at hChecked <;> cases hChecked
  obtain hSearch | ⟨ts, st₁, _, hFails⟩ := fails_bind.mp hFails
  · obtain ⟨e', hEq⟩ := onLatches_fails (eq_ok_of_mapError ht)
      (fun s hs => (checkStimuli_eq_ok hStimuli s hs).1) hSearch
    cases hEq
  · exact not_fails_pure hFails

end Search

section Unroll

variable (c : Circuit)

/-- The runs of a latch after the given steps, as long as nothing is found. -/
def unroll (t : Transition) (k : Component) (steps : List (List Level)) :
    Except FormulaError Runs :=
  steps.foldlM (fun r levels => do
    let (_, names, next) ← r.step c t k levels
    return next.advance c t names (r.settled c levels)) (.initial c)

variable {c} {t : Transition} {steps : List (List Level)}

theorem unroll_tracks (ht : Transition.ofCircuit c = .ok t) (k : Component)
    (hWidth : ∀ vs ∈ steps, vs.length = c.inputs.length) :
    ∃ r, unroll c t k steps = .ok r ∧ Tracks c steps k r := by
  induction steps using List.reverseRecOn with
  | nil => exact ⟨_, rfl, tracks_initial c k⟩
  | append_singleton past levels ih =>
    obtain ⟨hPast, hLast⟩ := List.forall_mem_append.mp hWidth
    obtain ⟨r, hr, h⟩ := ih hPast
    obtain ⟨formula, n, r', hStep, hGrows⟩ := h.step ht (hLast levels (List.mem_singleton_self _))
    refine ⟨r'.advance c t n (r.settled c levels), ?_, hGrows.tracks _⟩
    rw [unroll] at hr ⊢
    rw [List.foldlM_append, hr]
    simp only [bind, Except.bind, List.foldlM_cons, hStep]
    rfl

end Unroll

end SoftError.Vulnerability.OneShot

import SoftError.Proofs.Decision.Progress
import SoftError.Proofs.Vulnerability.Diagrammatic
import SoftError.Proofs.Vulnerability.Explicit
import SoftError.Proofs.Vulnerability.Incremental
import SoftError.Proofs.Vulnerability.OneShot
import SoftError.Vulnerability.Basic

/-!
# What the engines have in common

Each engine gives one genuine trace of every latch that it reports. The incremental and the
one-shot search decide the same about every latch, whatever the stimuli. On definite stimuli all
engines do, as golden alarms are constant there.
-/

namespace SoftError.Vulnerability

open Deciding

variable {c : Circuit} {o : Options} {stimuli : List Stimulus} {report : Report}

theorem Immune.spared {s : Stimulus} {latch : Nat} (h : Immune c s.steps latch)
    (hWidth : s.width = c.inputs.length) (hDefinite : s.hasFree = false) :
    Spared c s.bools latch := by
  intro time n hSilent
  have hAdmits : AdmitsSteps s.steps s.bools := admitsSteps_readings s.steps
  exact h (n + 1) time _ (hAdmits.take (n + 1)) (hSilent.errs hAdmits
    (fun vs hvs => (s.width_eq vs hvs).trans hWidth) (Stimulus.ne_free_of_hasFree hDefinite))

theorem Explicit.SparedBy.spared {s : Stimulus} {k : Component} (h : Explicit.SparedBy c s k) :
    Spared c s.bools k.index :=
  h s.bools (admitsSteps_readings s.steps)

theorem Evidence.vulnerable_eq {ks : List Component} {ts ts' : List ErrorTrace}
    (hDefinite : ∀ s ∈ stimuli, s.hasFree = false)
    (h : Evidence c (fun s k => Spared c s.bools k.index) stimuli ks ts)
    (h' : Evidence c (fun s k => Spared c s.bools k.index) stimuli ks ts') (o o' : Options) :
    (Report.ofTraces o ts).vulnerable = (Report.ofTraces o' ts').vulnerable := by
  have hShows : ∀ (k : Component) (t : ErrorTrace), (∃ s ∈ stimuli, Genuine c s k.index t) →
      ∃ s ∈ stimuli, ¬ Spared c s.bools k.index := by
    rintro k t ⟨s, hs, hGenuine⟩
    obtain ⟨inputs, hAdmits, _, hSilent⟩ := hGenuine.exists_silent
    obtain rfl := hAdmits.eq_readings (Stimulus.ne_free_of_hasFree (hDefinite s hs))
    exact ⟨s, hs, fun hSpared => hSpared t.flip t.error hSilent⟩
  have hOthers : ∀ k : Component, (∀ s ∈ stimuli, Spared c s.bools k.index) →
      ¬ ∃ s ∈ stimuli, ¬ Spared c s.bools k.index := by
    rintro k hSpared ⟨s, hs, hNot⟩
    exact hNot (hSpared s hs)
  exact Finds.vulnerable_eq h h' hShows hOthers hShows hOthers o o'

theorem Incremental.Exact.evidence {ks : List Component} {ts : List ErrorTrace}
    (h : Incremental.Exact c stimuli ks ts) (hWidth : ∀ s ∈ stimuli, s.width = c.inputs.length)
    (hDefinite : ∀ s ∈ stimuli, s.hasFree = false) :
    Evidence c (fun s k => Spared c s.bools k.index) stimuli ks ts := by
  refine h.imp (fun k t => ?_) fun k hImmune s hs => ?_
  · rintro ⟨s, hs, hShows⟩
    exact ⟨s, hs, hShows.genuine⟩
  · exact (hImmune s hs).spared (hWidth s hs) (hDefinite s hs)

/-- The report of an exact search. -/
def IsExact (c : Circuit) (o : Options) (stimuli : List Stimulus) (report : Report) : Prop :=
  ∃ checked ts, checkedLatches c o.reserved = .ok checked ∧
    Incremental.Exact c stimuli checked ts ∧ report = .ofTraces o ts

theorem symbolic_eq_ok (h : symbolic c o stimuli = .ok report) : IsExact c o stimuli report := by
  obtain ⟨_, _, hDecide⟩ := exists_of_bind_eq_ok h
  exact decide_returns (fun hReturns => Incremental.analyze_returns hReturns) hDecide

theorem singleTime_eq_ok (h : singleTime c o stimuli = .ok report) :
    IsExact c o stimuli report := by
  obtain ⟨_, _, hDecide⟩ := exists_of_bind_eq_ok h
  exact decide_returns (fun hReturns => OneShot.analyze_returns hReturns) hDecide

theorem singleTime_ne_formula (c : Circuit) (o : Options) (stimuli : List Stimulus)
    (e : FormulaError) : singleTime c o stimuli ≠ .error (.formula e) := by
  intro h
  rw [singleTime, requireAlarm] at h
  split at h
  · cases h
  · change o.decide (OneShot.analyze c o stimuli) = _ at h
    rw [Options.decide] at h
    split at h <;> exact OneShot.not_analyze_fails_formula e h

theorem IsExact.vulnerable_eq {report' : Report} (h : IsExact c o stimuli report)
    (h' : IsExact c o stimuli report') : report.vulnerable = report'.vulnerable := by
  obtain ⟨checked, ts, hChecked, hExact, rfl⟩ := h
  obtain ⟨checked', ts', hChecked', hExact', rfl⟩ := h'
  rw [hChecked] at hChecked'
  cases hChecked'
  have hShows : ∀ (k : Component) (t : ErrorTrace), (∃ s ∈ stimuli, Shows c s.steps k t) →
      ∃ s ∈ stimuli, ∃ time inputs n, SilentError c s ⟨k.index, time⟩ inputs n := by
    rintro k t ⟨s, hs, hShow⟩
    obtain ⟨inputs, hError⟩ := hShow.exists_silentError
    exact ⟨s, hs, t.flip, inputs, t.error, hError⟩
  have hOthers : ∀ k : Component, (∀ s ∈ stimuli, Immune c s.steps k.index) →
      ¬ ∃ s ∈ stimuli, ∃ time inputs n, SilentError c s ⟨k.index, time⟩ inputs n := by
    rintro k hImmune ⟨s, hs, time, inputs, n, hError⟩
    exact (hImmune s hs).not_silentError time inputs n hError
  exact Finds.vulnerable_eq hExact hExact' hShows hOthers hShows hOthers o o

theorem IsExact.documented (h : IsExact c o stimuli report) : Documented c o stimuli report := by
  obtain ⟨checked, ts, hChecked, hExact, rfl⟩ := h
  refine Evidence.documented (Q := fun s k => Immune c s.steps k.index) hChecked ?_
  refine hExact.imp (fun k t => ?_) fun _ => id
  rintro ⟨s, hs, hShows⟩
  exact ⟨s, hs, hShows.genuine⟩

/-- With any exact procedures the one-shot search reports the same latches as the incremental
one. It always finds a name for each variable of the transition relation, and the copy of a step
is never made unsatisfiable by the values of definite inputs. -/
theorem OneShot.agrees_with_incremental (c : Circuit) (o : Options) (stimuli : List Stimulus) :
    (∀ (σ σ' : Type) [DecisionProcedure σ] [ExactProcedure σ] [DecisionProcedure σ']
      [ExactProcedure σ'] (st st₁ : σ) (st' st₁' : σ') (report report' : Report),
      Returns (Incremental.analyze c o stimuli) st report st₁ →
      Returns (OneShot.analyze c o stimuli) st' report' st₁' →
        report.vulnerable = report'.vulnerable) ∧
    (∀ report report' : Report, symbolic c o stimuli = .ok report →
      singleTime c o stimuli = .ok report' → report.vulnerable = report'.vulnerable) ∧
    (∀ (σ : Type) [DecisionProcedure σ] (st : σ) (e : FormulaError),
      ¬ Fails (OneShot.analyze c o stimuli) st (.formula e)) ∧
    (∀ e : FormulaError, singleTime c o stimuli ≠ .error (.formula e)) ∧
    ∀ (t : Transition) (k : Component), Transition.ofCircuit c = .ok t → ∀ s ∈ stimuli,
      s.width = c.inputs.length → ∀ past levels rest, s.steps = past ++ levels :: rest →
        ∃ r formula names next copy, unroll c t k past = .ok r ∧
          r.step c t k levels = .ok (formula, names, next) ∧
          names.copy t.relation = .ok copy ∧ copy ≠ Cnf.unsat := by
  refine ⟨fun σ σ' _ _ _ _ st st₁ st' st₁' report report' h h' => ?_, fun report report' h h' => ?_,
    fun σ _ st e => OneShot.not_analyze_fails_formula e, singleTime_ne_formula c o stimuli, ?_⟩
  · exact IsExact.vulnerable_eq (Incremental.analyze_returns h) (OneShot.analyze_returns h')
  · exact (symbolic_eq_ok h).vulnerable_eq (singleTime_eq_ok h')
  · intro t k ht s _ hWidth past levels rest hSteps
    have hWidths : ∀ vs ∈ past ++ levels :: rest, vs.length = c.inputs.length :=
      fun vs hvs => (s.width_eq vs (hSteps ▸ hvs)).trans hWidth
    obtain ⟨hPast, hLevels, _⟩ := List.forall_mem_append.mp hWidths |>.imp_right
      List.forall_mem_cons.mp
    obtain ⟨r, hUnroll, hTracks⟩ := unroll_tracks ht k hPast
    obtain ⟨formula, names, next, hStep, hGrows⟩ := hTracks.step ht hLevels
    obtain ⟨copy, hCopy, ρ, hρ⟩ := hGrows.copied
    refine ⟨r, formula, names, next, copy, hUnroll, hStep, hCopy, ?_⟩
    rintro rfl
    obtain ⟨l, hl, _⟩ := Clause.mem_models.mp (Cnf.mem_models.mp hρ [] (List.mem_singleton_self _))
    cases hl

/-- Two latches that hold their values. The first one is shown at the output while the input is
high, and the second one is the alarm. -/
def alarmedPair : Circuit where
  maxVar := 4
  inputs := [⟨2⟩]
  latches := [⟨⟨4⟩, ⟨4⟩, none⟩, ⟨⟨6⟩, ⟨6⟩, none⟩]
  outputs := [⟨8⟩, ⟨6⟩]
  gates := [⟨⟨8⟩, ⟨4⟩, ⟨2⟩⟩]
  wellFormed := ⟨by decide, by decide, by decide, by decide, by decide, by decide,
    ⟨by decide, trivial⟩⟩

theorem alarmedPair_singleTime : singleTime alarmedPair {} [lateInput] =
    .ok ⟨[⟨4⟩], [⟨⟨4⟩, 1, 1, [[false], [true]]⟩]⟩ := eq_ok_of_toOption (by decide +kernel)

theorem alarmedPair_agrees : ∃ report report',
    symbolic alarmedPair {} [lateInput] = .ok report ∧
      singleTime alarmedPair {} [lateInput] = .ok report' ∧
      report'.vulnerable = [⟨4⟩] ∧ report.vulnerable = report'.vulnerable := by
  have hSymbolic : symbolic alarmedPair {} [lateInput] =
      .ok ⟨[⟨4⟩], [⟨⟨4⟩, 1, 1, [[false], [true]]⟩]⟩ := eq_ok_of_toOption (by decide +kernel)
  exact ⟨_, _, hSymbolic, alarmedPair_singleTime, rfl,
    (OneShot.agrees_with_incremental alarmedPair {} [lateInput]).2.1 _ _ hSymbolic
      alarmedPair_singleTime⟩

/-- The reports of the engines. The searches may use any exact procedure, and any satisfying
assignment may be chosen for a diagram. -/
inductive Reported (c : Circuit) (o : Options) (stimuli : List Stimulus) : Report → Prop where
  | symbolic {report : Report} (h : symbolic c o stimuli = .ok report) : Reported c o stimuli report
  | singleTime {report : Report} (h : singleTime c o stimuli = .ok report) :
    Reported c o stimuli report
  | incremental {σ : Type} [DecisionProcedure σ] [ExactProcedure σ] {st st' : σ} {report : Report}
    (h : Returns (Incremental.analyze c o stimuli) st report st') : Reported c o stimuli report
  | oneShot {σ : Type} [DecisionProcedure σ] [ExactProcedure σ] {st st' : σ} {report : Report}
    (h : Returns (OneShot.analyze c o stimuli) st report st') : Reported c o stimuli report
  | diagrammatic {chooser : Diagram.Chooser} {report : Report}
    (h : Diagrammatic.analyze c o stimuli chooser = .ok report) : Reported c o stimuli report
  | explicit {report : Report} (h : Explicit.analyze c o stimuli = .ok report) :
    Reported c o stimuli report

/-- Every report has one genuine trace of each latch that it names, or no traces at all if they
are not asked for. -/
theorem documented_of_reported (h : Reported c o stimuli report) :
    Documented c o stimuli report := by
  cases h with
  | symbolic h => exact (symbolic_eq_ok h).documented
  | singleTime h => exact (singleTime_eq_ok h).documented
  | incremental h => exact IsExact.documented (Incremental.analyze_returns h)
  | oneShot h => exact IsExact.documented (OneShot.analyze_returns h)
  | diagrammatic h => exact Diagrammatic.documented_analyze h
  | explicit h => exact Explicit.documented_analyze h

theorem alarmedPair_documented : Documented alarmedPair {} [lateInput]
    ⟨[⟨4⟩], [⟨⟨4⟩, 1, 1, [[false], [true]]⟩]⟩ :=
  documented_of_reported (.singleTime alarmedPair_singleTime)

/-- On definite stimuli the engines report the same latches, and the symbolic one does so with
any exact procedure. -/
theorem vulnerable_eq_of_definite {diagrammatic explicit search diagram : Report}
    {chooser : Diagram.Chooser} (hDefinite : ∀ s ∈ stimuli, s.hasFree = false)
    (hDiagrammatic : Diagrammatic.analyze c o stimuli chooser = .ok diagrammatic)
    (hExplicit : Explicit.analyze c o stimuli = .ok explicit)
    (hSearch : symbolic c { o with backend := .search } stimuli = .ok search)
    (hDiagram : symbolic c { o with backend := .diagram } stimuli = .ok diagram) :
    diagrammatic.vulnerable = explicit.vulnerable ∧ search.vulnerable = explicit.vulnerable ∧
      diagram.vulnerable = explicit.vulnerable ∧
      ∀ (σ : Type) [DecisionProcedure σ] [ExactProcedure σ] (st st' : σ) (report : Report),
        Returns (Incremental.analyze c o stimuli) st report st' →
          report.vulnerable = explicit.vulnerable := by
  obtain ⟨hStimuli, checked, ts, hChecked, hEvidence, rfl⟩ := Explicit.analyze_eq_ok hExplicit
  have hWidth := fun s hs => (checkStimuli_eq_ok hStimuli s hs).1
  have hSpared : Evidence c (fun s k => Spared c s.bools k.index) stimuli checked ts :=
    hEvidence.imp (fun _ _ => id) fun k h s hs => (h s hs).spared
  -- An exact report on any options that check the same latches agrees with the explicit one.
  have hExact : ∀ (o' : Options) (report : Report), o'.reserved = o.reserved →
      IsExact c o' stimuli report →
      report.vulnerable = (Report.ofTraces o ts).vulnerable := by
    rintro o' _ hReserved ⟨checked', ts', hChecked', hExact, rfl⟩
    rw [hReserved, hChecked] at hChecked'
    cases hChecked'
    exact Evidence.vulnerable_eq hDefinite (hExact.evidence hWidth hDefinite) hSpared o' o
  refine ⟨?_, hExact { o with backend := .search } _ rfl (symbolic_eq_ok hSearch),
    hExact { o with backend := .diagram } _ rfl (symbolic_eq_ok hDiagram),
    fun σ _ _ st st' report hReturns => hExact o report rfl (Incremental.analyze_returns hReturns)⟩
  obtain ⟨checked', ts', hChecked', hEvidence', rfl⟩ := Diagrammatic.analyze_eq_ok hDiagrammatic
  rw [hChecked] at hChecked'
  cases hChecked'
  exact Evidence.vulnerable_eq hDefinite hEvidence' hSpared o o

/-- The input is low at first and high from then on. -/
def risingInput : Stimulus := ⟨1, [[.low], [.high]], by decide⟩

theorem alarmedPair_vulnerable_eq :
    ∃ diagrammatic explicit search diagram,
      Diagrammatic.analyze alarmedPair {} [risingInput] = .ok diagrammatic ∧
      Explicit.analyze alarmedPair {} [risingInput] = .ok explicit ∧
      symbolic alarmedPair { backend := .search } [risingInput] = .ok search ∧
      symbolic alarmedPair { backend := .diagram } [risingInput] = .ok diagram ∧
      explicit.vulnerable = [⟨4⟩] ∧ diagrammatic.vulnerable = explicit.vulnerable ∧
      search.vulnerable = explicit.vulnerable ∧ diagram.vulnerable = explicit.vulnerable := by
  have hDefinite : ∀ s ∈ [risingInput], s.hasFree = false := by decide
  have hDiagrammatic : Diagrammatic.analyze alarmedPair {} [risingInput] =
      .ok ⟨[⟨4⟩], [⟨⟨4⟩, 1, 1, [[false], [true]]⟩]⟩ := eq_ok_of_toOption (by decide +kernel)
  have hExplicit : Explicit.analyze alarmedPair {} [risingInput] =
      .ok ⟨[⟨4⟩], [⟨⟨4⟩, 0, 1, [[false], [true]]⟩]⟩ := eq_ok_of_toOption (by decide +kernel)
  have hSearch : symbolic alarmedPair { backend := .search } [risingInput] =
      .ok ⟨[⟨4⟩], [⟨⟨4⟩, 1, 1, [[false], [true]]⟩]⟩ := eq_ok_of_toOption (by decide +kernel)
  have hDiagram : symbolic alarmedPair { backend := .diagram } [risingInput] =
      .ok ⟨[⟨4⟩], [⟨⟨4⟩, 1, 1, [[false], [true]]⟩]⟩ := eq_ok_of_toOption (by decide +kernel)
  have hSame := vulnerable_eq_of_definite hDefinite hDiagrammatic hExplicit hSearch hDiagram
  exact ⟨_, _, _, _, hDiagrammatic, hExplicit, hSearch, hDiagram, rfl, hSame.1, hSame.2.1,
    hSame.2.2.1⟩

end SoftError.Vulnerability

import SoftError.Proofs.Vulnerability.Engines

/-!
# Results of the searches

The incremental search and that by explicit faults report the latches that err in some run on
the stimuli. The incremental search passes over the runs in which a golden alarm is raised,
unless that alarm is a constant of the symbolic run. It ends wherever the session refuses
nothing, as each reading excludes a selector that was high. Explicit faults are tried on any
stimuli without too many free inputs.
-/

namespace SoftError.Vulnerability

open Deciding ExactProcedure

variable {c : Circuit} {o : Options} {stimuli : List Stimulus} {report : Report}

/-- Up to step `t` the golden run raises no alarm but those that are constants of the symbolic
run. -/
def Undisturbed (c : Circuit) (s : Stimulus) (inputs : List (List Bool)) (t : Nat) : Prop :=
  ∀ i ≤ t, ∀ table a, (c.tables inputs)[i]? = some table →
    (Unrolling.alarms c s.steps)[i]? = some a → a.isConstant = false → table.alarm c = false

theorem Undisturbed.upTo {s : Stimulus} {inputs : List (List Bool)}
    (h : Undisturbed c s inputs s.length) (t : Nat) : Undisturbed c s inputs t := by
  intro i _ table a hTable ha
  have hi : i < s.length :=
    (List.getElem?_eq_some_iff.mp ha).1.trans_eq (Unrolling.length_alarms s.steps)
  exact h i (Nat.le_of_lt hi) table a hTable ha

/-- A flip of the latch leads to a silent error in a run on one of the stimuli, where `P` holds
of the run up to the error. -/
def Erring (c : Circuit) (stimuli : List Stimulus)
    (P : Stimulus → List (List Bool) → Nat → Prop) (latch : Nat) : Prop :=
  ∃ s ∈ stimuli, ∃ inputs, s.Admits inputs ∧ ∃ time t,
    Silent c ((⟨latch, time⟩ : Fault).replay c inputs) t ∧ P s inputs t

theorem Erring.imp {P Q : Stimulus → List (List Bool) → Nat → Prop} {latch : Nat}
    (h : Erring c stimuli P latch)
    (hImp : ∀ s ∈ stimuli, ∀ inputs, s.Admits inputs → ∀ t, P s inputs t → Q s inputs t) :
    Erring c stimuli Q latch := by
  obtain ⟨s, hs, inputs, hAdmits, time, t, hSilent, hP⟩ := h
  exact ⟨s, hs, inputs, hAdmits, time, t, hSilent, hImp s hs inputs hAdmits t hP⟩

theorem silentError_iff_silent {s : Stimulus} {f : Fault} {inputs : List (List Bool)} {t : Nat} :
    SilentError c s f inputs t ↔
      s.Admits inputs ∧ Silent c (f.replay c inputs) t ∧ Undisturbed c s inputs t := by
  have hTables : ∀ i : Nat, (c.tables inputs)[i]? =
      (f.replay c inputs)[i]?.map Observation.golden := fun i => by
    rw [← f.map_golden_replay c inputs, List.getElem?_map]
  constructor
  · rintro ⟨hAdmits, _, _, hQuiet, hWrong, hGolden⟩
    refine ⟨hAdmits, ⟨hQuiet, hWrong⟩, fun i hi table a hTable ha hOpen => ?_⟩
    rw [hTables] at hTable
    obtain ⟨o, ho, rfl⟩ := Option.map_eq_some_iff.mp hTable
    exact hGolden i hi o a ho ha hOpen
  · rintro ⟨hAdmits, hSilent, hGolden⟩
    refine ⟨hAdmits, hSilent.strikes.1, lt_of_lt_of_eq hSilent.lt_length hAdmits.length_eq.symm,
      hSilent.quiet, hSilent.wrong, fun i hi o a ho ha hOpen => ?_⟩
    refine hGolden i hi o.golden a ?_ ha hOpen
    rw [hTables, ho]
    rfl

/-- The report has the checked latches with `R`. -/
structure Reports (c : Circuit) (reserved : Nat) (report : Report) (R : Nat → Prop) : Prop where
  ascending : report.vulnerable.Pairwise fun a b => a.code < b.code
  exists_latch : ∀ x ∈ report.vulnerable,
    ∃ (i : Nat) (l : Latch), c.latches[i]? = some l ∧ l.signal = x
  mem_iff : ∀ {i : Nat} {l : Latch}, c.latches[i]? = some l →
    (l.signal ∈ report.vulnerable ↔ i < c.latches.length - reserved ∧ R i)

theorem Finds.reports {P : Component → ErrorTrace → Prop} {Q : Component → Prop} {R : Nat → Prop}
    {checked : List Component} {ts : List ErrorTrace} (h : Finds P Q checked ts)
    (hChecked : checkedLatches c o.reserved = .ok checked) (hP : ∀ k t, P k t → R k.index)
    (hQ : ∀ k, Q k → ¬ R k.index) : Reports c o.reserved (.ofTraces o ts) R := by
  obtain ⟨hLatch, hIff⟩ := h.mem_vulnerable_iff hChecked hP hQ
  refine ⟨pairwise_sorted _, fun x hx => ?_, hIff _ _⟩
  obtain ⟨l, hl, rfl⟩ := hLatch x hx
  obtain ⟨i, hi⟩ := List.mem_iff_getElem?.mp hl
  exact ⟨i, l, hi, rfl⟩

theorem Reports.vulnerable_eq {reserved : Nat} {report' : Report} {R R' : Nat → Prop}
    (h : Reports c reserved report R) (h' : Reports c reserved report' R') (hR : ∀ i, R i ↔ R' i) :
    report.vulnerable = report'.vulnerable := by
  have hMem : ∀ {i : Nat} {l : Latch}, c.latches[i]? = some l →
      (l.signal ∈ report.vulnerable ↔ l.signal ∈ report'.vulnerable) := fun {i _} hl => by
    rw [h.mem_iff hl, h'.mem_iff hl, hR i]
  refine Ascending.eq_of_mem_iff (fun _ _ => Nat.lt_asymm) h.ascending h'.ascending fun x => ?_
  constructor
  · intro hx
    obtain ⟨i, l, hl, rfl⟩ := h.exists_latch x hx
    exact (hMem hl).mp hx
  · intro hx
    obtain ⟨i, l, hl, rfl⟩ := h'.exists_latch x hx
    exact (hMem hl).mpr hx

/-- An exact search reports the checked latches that err in a run without a golden alarm, other
than constant ones. -/
theorem IsExact.reports (h : IsExact c o stimuli report) :
    Reports c o.reserved report (Erring c stimuli (Undisturbed c)) := by
  obtain ⟨checked, ts, hChecked, hExact, rfl⟩ := h
  refine Finds.reports hExact hChecked (fun k t hShows => ?_) fun k hImmune => ?_
  · obtain ⟨s, hs, hShows⟩ := hShows
    obtain ⟨inputs, hError⟩ := hShows.exists_silentError
    obtain ⟨hAdmits, hSilent⟩ := silentError_iff_silent.mp hError
    exact ⟨s, hs, inputs, hAdmits, t.flip, t.error, hSilent⟩
  · rintro ⟨s, hs, inputs, hAdmits, time, t, hSilent⟩
    exact (hImmune s hs).not_silentError time inputs t
      (silentError_iff_silent.mpr ⟨hAdmits, hSilent⟩)

namespace Incremental

variable {all remaining : List Candidate} {s : Stimulus} {r : Runs}

/-- A reading excludes the selector of its latch. -/
theorem exists_of_read {ρ : Assignment} (hρ : ρ ∈ pinned) {block : Clause} {t : ErrorTrace}
    (hRead : r.read all s ⟨modelLits ρ (r.interest all)⟩ = some (block, t)) :
    ∃ l ∈ all.map Prod.snd, block = [-l] ∧ l.holds ρ = true := by
  have hInterest : ∀ k ∈ all, k.2 ∈ r.interest all := fun k hk =>
    List.mem_append_left _ (List.mem_append_left _ (List.mem_map_of_mem hk))
  obtain ⟨k, hFind, hEq⟩ := Option.map_eq_some_iff.mp hRead
  cases hEq
  obtain ⟨hMem, hHolds⟩ := holds_of_find? hInterest hρ hFind
  exact ⟨k.2, hMem, rfl, hHolds⟩

variable {σ : Type} [DecisionProcedure σ] [ExactProcedure σ] {Ready : Bool → σ → Prop}
  (hAnswers : Answering (fun _ => True) Ready) {nested : Bool} {st : σ}
include hAnswers

/-- The induction is on the steps that are left. -/
theorem yields_onSteps {M : Set Assignment} {stack : List (Set Assignment)}
    {steps : List (List Level)} (hs : Live Ready nested (M :: stack) st) (hPinned : M ⊆ pinned) :
    Yields (onSteps c all s steps r remaining) st fun _ => Ready nested := by
  induction steps generalizing r remaining M st with
  | nil => exact yields_pure hs.ready
  | cons levels steps ih =>
    obtain ⟨x, r', hStep⟩ : ∃ x r', r.step c remaining levels = (x, r') := ⟨_, _, rfl⟩
    simp only [onSteps, hStep]
    refine (hAnswers.yields_addCnf hs x.clauses).bind fun _ _ hs₁ => ?_
    have hPinned₁ : M ∩ Cnf.models x.clauses ⊆ pinned := Set.inter_subset_left.trans hPinned
    refine (hAnswers.yields_addFolded hs₁ hPinned₁ x.difference).bind fun _ _ hs₂ => ?_
    have hPinned₂ : M ∩ Cnf.models x.clauses ∩ Clause.models x.difference ⊆ pinned :=
      Set.inter_subset_left.trans hPinned₁
    refine (hAnswers.yields_enumerate (fun ρ hρ block t => exists_of_read hρ) hs₂ hPinned₂
      (List.length_map _).le).bind fun found _ hs₃ => ?_
    obtain ⟨N, hN, hs₃⟩ := hs₃
    -- what the enumeration has excluded leaves the constant pinned
    split
    · exact yields_pure hs₃.ready
    · refine (ih hs₃ (hN.trans hPinned₂)).bind fun more _ hReady => ?_
      exact yields_pure hReady

theorem yields_onStimuli {pool : VarPool} (hs : Ready nested st) :
    Yields (onStimuli c all pool stimuli remaining) st fun _ _ => True := by
  induction stimuli generalizing remaining nested st with
  | nil => exact yields_pure trivial
  | cons s stimuli ih =>
    rw [onStimuli]
    split
    · exact yields_pure trivial
    · refine (hAnswers.yields_start hs (all.map Prod.snd) false).bind fun _ _ hs₁ => ?_
      refine (hAnswers.yields_addTop hs₁).bind fun _ _ hs₂ => ?_
      refine (yields_onSteps hAnswers hs₂ subset_rfl).bind fun found _ hs₃ => ?_
      refine (hAnswers.yields_finish hs₃).bind fun _ _ hs₄ => ?_
      exact (ih hs₄).bind fun _ _ _ => yields_pure trivial

theorem yields_analyze (hReserved : o.reserved ≤ c.latches.length)
    (hWidth : ∀ s ∈ stimuli, s.width = c.inputs.length) (hs : Ready nested st) :
    Yields (analyze c o stimuli) st fun _ _ => True := by
  obtain ⟨checked, hChecked⟩ := exists_checkedLatches hReserved
  rw [analyze, checkStimuli_of_width hWidth, hChecked]
  exact ((yields_onStimuli hAnswers hs).adapt AnalysisError.solver).bind
    fun _ _ _ => yields_pure trivial

end Incremental

/-- The reports of the incremental search, with any exact procedure. -/
inductive Searched (c : Circuit) (o : Options) (stimuli : List Stimulus) : Report → Prop where
  | symbolic {report : Report} (h : symbolic c o stimuli = .ok report) : Searched c o stimuli report
  | incremental {σ : Type} [DecisionProcedure σ] [ExactProcedure σ] {st st' : σ} {report : Report}
    (h : Returns (Incremental.analyze c o stimuli) st report st') : Searched c o stimuli report

theorem Searched.isExact (h : Searched c o stimuli report) : IsExact c o stimuli report := by
  cases h with
  | symbolic h => exact symbolic_eq_ok h
  | incremental h => exact Incremental.analyze_returns h

theorem Searched.width (h : Searched c o stimuli report) :
    ∀ s ∈ stimuli, s.width = c.inputs.length := by
  have hReturns : ∀ {σ : Type} [DecisionProcedure σ] [ExactProcedure σ] {st st' : σ}
      {report : Report}, Returns (Incremental.analyze c o stimuli) st report st' →
        checkStimuli c true stimuli = .ok () := fun hReturns => by
    obtain ⟨_, hStimuli, _⟩ := returns_ofExcept_bind.mp hReturns
    exact hStimuli
  have hStimuli : checkStimuli c true stimuli = .ok () := by
    cases h with
    | symbolic h =>
      obtain ⟨_, _, hDecide⟩ := exists_of_bind_eq_ok h
      exact decide_returns (P := fun _ => checkStimuli c true stimuli = .ok ()) hReturns hDecide
    | incremental h => exact hReturns h
  exact fun s hs => (checkStimuli_eq_ok hStimuli s hs).1

theorem exists_symbolic_eq_ok (hAlarm : c.alarm?.isSome = true)
    (hReserved : o.reserved ≤ c.latches.length)
    (hWidth : ∀ s ∈ stimuli, s.width = c.inputs.length) (hBackend : o.backend = .search) :
    ∃ report, symbolic c o stimuli = .ok report := by
  obtain ⟨report, hDecide⟩ := exists_decide_eq_ok (m := Incremental.analyze c o stimuli) hBackend
    fun hAnswers hs => Incremental.yields_analyze hAnswers hReserved hWidth hs
  obtain ⟨alarm, hSome⟩ := Option.isSome_iff_exists.mp hAlarm
  refine ⟨report, ?_⟩
  rw [symbolic, requireAlarm, hSome]
  exact hDecide

namespace Explicit

theorem reports_analyze (h : analyze c o stimuli = .ok report) :
    Reports c o.reserved report (Erring c stimuli fun _ _ _ => True) := by
  obtain ⟨_, checked, ts, hChecked, hEvidence, rfl⟩ := analyze_eq_ok h
  refine Finds.reports hEvidence hChecked (fun k t hShows => ?_) fun k hSpared => ?_
  · obtain ⟨s, hs, hGenuine⟩ := hShows
    obtain ⟨inputs, hAdmits, _, hSilent⟩ := hGenuine.exists_silent
    exact ⟨s, hs, inputs, hAdmits, t.flip, t.error, hSilent, trivial⟩
  · rintro ⟨s, hs, inputs, hAdmits, time, t, hSilent, _⟩
    exact hSpared s hs inputs hAdmits time t hSilent

theorem exists_onStimuli_eq_ok (hFree : ∀ s ∈ stimuli, s.freeCount ≤ maxFree) (index : Nat)
    (found : List ErrorTrace) (ks : List Component) :
    ∃ ts, onStimuli c index stimuli found ks = .ok ts := by
  induction stimuli generalizing index found ks with
  | nil => exact ⟨found, rfl⟩
  | cons s stimuli ih =>
    obtain ⟨hFirst, hRest⟩ := List.forall_mem_cons.mp hFree
    rw [onStimuli, if_neg (Nat.not_lt.mpr hFirst)]
    split
    · exact ⟨_, rfl⟩
    · exact ih hRest _ _ _

theorem exists_analyze_eq_ok (hAlarm : c.alarm?.isSome = true)
    (hReserved : o.reserved ≤ c.latches.length)
    (hWidth : ∀ s ∈ stimuli, s.width = c.inputs.length)
    (hFree : ∀ s ∈ stimuli, s.freeCount ≤ maxFree) :
    ∃ report, analyze c o stimuli = .ok report := by
  obtain ⟨alarm, hSome⟩ := Option.isSome_iff_exists.mp hAlarm
  obtain ⟨checked, hChecked⟩ := exists_checkedLatches hReserved
  obtain ⟨ts, hTraces⟩ := exists_onStimuli_eq_ok hFree 0 [] checked (c := c)
  refine ⟨.ofTraces o ts, ?_⟩
  rw [analyze, requireAlarm, hSome, checkStimuli_of_width hWidth, hChecked]
  change (onStimuli c 0 stimuli [] checked >>= fun ts => pure (Report.ofTraces o ts)) = _
  rw [hTraces]
  rfl

end Explicit

end SoftError.Vulnerability

import SoftError.Proofs.Decision.Session
import SoftError.Proofs.Superfluous.Shortcut
import SoftError.Proofs.Superfluous.Stages

/-!
# A step of the search for superfluous alarms

The session stands for the harmless faults that may still be found: its models choose a latch,
the step of the flip and inputs, and under each of them the symbolic runs are those of the
fault chosen. One more step keeps this up, and the models that do not switch off its check are
those in which the alarm is superfluous.
-/

namespace SoftError.Superfluous

/-- The latches that can be flipped. -/
def Location.components : Location → List Component
  | fixed k => [k]
  | selected all => all.map Prod.fst

/-- The values of the inputs. -/
def Runs.values (r : Runs) (ρ : Assignment) : List (List Bool) :=
  r.inputs.map fun ls => ls.map (Lit.holds ρ)

/-- An assignment chooses a fault whose flip is not settled. -/
structure Chooses (c : Circuit) (location : Location) (r : Runs) (ρ : Assignment) (f : Fault) :
    Prop where
  latch : location.Selects c ρ f.latch
  time : Picks ρ r.flips f.time
  pending : Pending r.flips r.time f.time

/-- The faulty run is that of a harmless fault that has not been found before. -/
structure Matches (p : Problem) (found : List Fault) (r : Runs) (ρ : Assignment) (f : Fault) :
    Prop where
  faulty : r.faulty.table.Values (Lit.holds ρ) (f.run p.circuit (r.values ρ)).2
  harmless : Harmless p f (r.values ρ)
  alarms : r.alarms.map (Lit.holds ρ) =
    (f.replay p.circuit (r.values ρ)).map fun o => o.faulty.alarm p.circuit
  unfound : f ∉ found

/-- An assignment makes the runs those of the fault that it chooses. -/
structure Follows (p : Problem) (past : List (List Level)) (location : Location)
    (found : List Fault) (r : Runs) (ρ : Assignment) : Prop where
  atMostOne : AtMostOne ρ location.selectors
  atMostOnce : AtMostOne ρ (r.flips.map Prod.snd)
  admits : AdmitsSteps past (r.values ρ)
  golden : r.golden.table.Values (Lit.holds ρ) (p.circuit.run (r.values ρ))
  environment : Reads p ρ r.environment fun env => env.run (p.feeds (r.values ρ))
  runs : ∀ f, Chooses p.circuit location r ρ f → Matches p found r ρ f

/-- The session stands for the faults that have been harmless so far and have not been found.
The flips that are settled have been found, or they do harm. -/
structure Tracks (p : Problem) (M : Set Assignment) (past : List (List Level))
    (location : Location) (found : List Fault) (r : Runs) : Prop where
  fits : location.Fits p.circuit
  valid : r.encoder.Valid M
  selectorsBelow : ∀ l ∈ location.selectors, l.var < r.encoder.nextVar
  flipsBelow : ∀ x ∈ r.flips, x.2.var < r.encoder.nextVar
  alarmsBelow : ∀ l ∈ r.alarms, l.var < r.encoder.nextVar
  doneBelow : ∀ l ∈ r.done, l.var < r.encoder.nextVar
  inputsBelow : ∀ ls ∈ r.inputs, ∀ l ∈ ls, l.var < r.encoder.nextVar
  goldenBelow : r.golden.table.Below r.encoder.nextVar
  faultyBelow : r.faulty.table.Below r.encoder.nextVar
  environmentBelow : ∀ u ∈ r.environment, u.table.Below r.encoder.nextVar
  known : ∀ ls ∈ r.inputs, ∀ l ∈ ls, l.isConstant = true ∨ l ∈ r.golden.opened
  time : r.time = past.length
  times : ∀ x ∈ r.flips, x.1 < r.time
  distinct : (r.flips.map Prod.fst).Nodup
  concrete : ∀ t ∈ r.concrete, Concrete p past r.golden.table t
  earlier : ∀ f ∈ found, f.time < r.time
  settled : ∀ k ∈ location.components, ∀ time < r.time, time ∉ r.flips.map Prod.fst →
    ⟨k.index, time⟩ ∈ found ∨
      ∀ inputs, AdmitsSteps past inputs → ¬ Harmless p ⟨k.index, time⟩ inputs
  sound : ∀ ρ ∈ r.encoder.models M, Follows p past location found r ρ
  complete : ∀ k ∈ location.components, ∀ time, Pending r.flips r.time time →
    ⟨k.index, time⟩ ∉ found → ∀ inputs, AdmitsSteps past inputs →
    Harmless p ⟨k.index, time⟩ inputs →
    ∃ ρ ∈ r.encoder.models M, Chooses p.circuit location r ρ ⟨k.index, time⟩ ∧
      r.values ρ = inputs ∧ Meets ρ r.done

/-- The concrete run, one step on. -/
def Runs.stepped (p : Problem) (levels : List Level) (r : Runs) : Option (Table Bool) :=
  r.concrete.map fun t => t.step p.circuit (levels.map Level.toBool)

/-- The parts of a step, each as specified. -/
structure Stages (p : Problem) (M : Set Assignment) (location : Location) (s : Stimulus)
    (levels : List Level) (r : Runs) (golden : Unrolling) (e₁ : Encoder)
    (flips : List (Nat × Lit)) (faulty : Unrolling) (e₂ : Encoder) (relevant : Option (List Lit))
    (environment : Option Unrolling) (e₃ : Encoder) : Prop where
  low : golden.alarm p.circuit ≠ .top
  drives : Unrolling.Drives p.circuit M r.golden r.encoder levels (golden, e₁)
  injects : Injects p.circuit M location r.time r.flips
    (r.faulty.setInputs p.circuit (golden.inputs p.circuit)).table
    (e₁.keepLow (golden.alarm p.circuit)) flips faulty.table e₂
  judges : Judges p M (golden.inputs p.circuit ++ golden.outputs p.circuit) r.environment e₂
    relevant environment e₃
  opened : (settle p s r.time (r.stepped p levels) location).1 = true →
    r.time ∈ flips.map Prod.fst
  closed : (settle p s r.time (r.stepped p levels) location).1 = false → flips = r.flips
  folds : ∀ t ∈ r.concrete, (∀ v ∈ levels, v ≠ .free) →
    golden.table.Folds (t.step p.circuit (levels.map Level.toBool))

section Extension

variable (p : Problem) (levels : List Level) (r : Runs) (golden faulty : Unrolling)
  (flips : List (Nat × Lit)) (environment : Option Unrolling) (e : Encoder)

/-- The runs after a step. -/
def Runs.extended : Runs where
  encoder := e.fresh.2.take.2
  golden
  faulty
  environment
  concrete := r.stepped p levels
  time := r.time
  flips
  alarms := r.alarms ++ [faulty.alarm p.circuit]
  done := r.done ++ [e.fresh.1]
  inputs := r.inputs ++ [golden.inputs p.circuit]

/-- What a step adds to the session. -/
def Runs.extension (immediate : Option SuperfluousTrace) (relevant : Option (List Lit)) :
    Extension where
  immediate
  checks := outputChecks p relevant golden faulty ++ (stateChecks p e.fresh.1 golden faulty).2
  clauses := e.fresh.2.take.1
  alarm := r.alarms ++ [faulty.alarm p.circuit] ++ [e.fresh.1]
  assumptions := r.done ++ [-e.fresh.1] ++ (stateChecks p e.fresh.1 golden faulty).1

end Extension

variable {p : Problem} {M : Set Assignment} {past : List (List Level)} {location : Location}
  {found : List Fault} {r : Runs} {s : Stimulus} {levels : List Level}

theorem time_mem_faultyStage {c : Circuit} {time : Nat} {flips flips' : List (Nat × Lit)}
    {u u' : Unrolling} {e e' : Encoder}
    (h : faultyStage c location time flips true u e = (flips', u', e')) :
    time ∈ flips'.map Prod.fst := by
  cases h
  simp

theorem eq_of_faultyStage {c : Circuit} {time : Nat} {flips flips' : List (Nat × Lit)}
    {u u' : Unrolling} {e e' : Encoder}
    (h : faultyStage c location time flips false u e = (flips', u', e')) : flips' = flips := by
  cases h
  rfl

theorem step_eq (p : Problem) (location : Location) (s : Stimulus) (levels : List Level)
    (r : Runs) :
    r.step p location s levels =
      let (golden, e) := Unrolling.drive p.circuit (r.golden, r.encoder) levels
      if golden.alarm p.circuit = .top then none
      else
        let (flips, faulty, e) := faultyStage p.circuit location r.time r.flips
          (settle p s r.time (r.stepped p levels) location).1
          (r.faulty.setInputs p.circuit (golden.inputs p.circuit))
          (if golden.alarm p.circuit = .bot then e else e.add [[-golden.alarm p.circuit]])
        let ((relevant, environment), e) := stepEnvironment p
          (golden.inputs p.circuit ++ golden.outputs p.circuit) r.environment e
        some (r.extension p golden faulty e (settle p s r.time (r.stepped p levels) location).2
            relevant, r.extended p levels golden faulty flips environment e) := rfl

theorem Tracks.values_congr (h : Tracks p M past location found r) {ρ ρ' : Assignment}
    (hAgree : AgreeBelow r.encoder.nextVar ρ ρ') : r.values ρ = r.values ρ' :=
  List.map_congr_left fun ls hls => hAgree.map_holds (h.inputsBelow ls hls)

theorem Tracks.stages (h : Tracks p M past location found r)
    (hLength : levels.length = p.circuit.inputs.length) :
    r.step p location s levels = none ∨
    ∃ golden e₁ flips faulty e₂ relevant environment e₃,
      Stages p M location s levels r golden e₁ flips faulty e₂ relevant environment e₃ ∧
      r.step p location s levels =
        some (r.extension p golden faulty e₃ (settle p s r.time (r.stepped p levels) location).2
          relevant, r.extended p levels golden faulty flips environment e₃) := by
  obtain ⟨golden, e₁, hDrive⟩ :
      ∃ u e, Unrolling.drive p.circuit (r.golden, r.encoder) levels = (u, e) := ⟨_, _, rfl⟩
  have hDrives := Unrolling.drives h.valid h.goldenBelow hLength
  rw [hDrive] at hDrives
  rw [step_eq, hDrive]
  by_cases hTop : golden.alarm p.circuit = .top
  · exact .inl (if_pos hTop)
  right
  have hLow : (e₁.keepLow (golden.alarm p.circuit)).Valid M :=
    hDrives.valid.keepLow (hDrives.bounded.alarm e₁.two_le_nextVar p.circuit)
  have hLe : r.encoder.nextVar ≤ (e₁.keepLow (golden.alarm p.circuit)).nextVar := by
    rw [Encoder.nextVar_keepLow]
    exact hDrives.le
  have hInputs : ∀ l ∈ golden.inputs p.circuit,
      l.var < (e₁.keepLow (golden.alarm p.circuit)).nextVar := by
    rw [Encoder.nextVar_keepLow]
    exact hDrives.bounded.map_read _
  obtain ⟨flips, faulty, e₂, hFaulty⟩ : ∃ flips u e, faultyStage p.circuit location r.time r.flips
      (settle p s r.time (r.stepped p levels) location).1
      (r.faulty.setInputs p.circuit (golden.inputs p.circuit))
      (e₁.keepLow (golden.alarm p.circuit)) = (flips, u, e) := ⟨_, _, _, rfl⟩
  have hInjects := injects_faultyStage hLow
    ((h.faultyBelow.mono hLe).setAll p.circuit.inputs hInputs)
    (fun x hx => lt_of_lt_of_le (h.flipsBelow x hx) hLe) h.times
    (fun l hl => lt_of_lt_of_le (h.selectorsBelow l hl) hLe) h.fits _ hFaulty
  have hOld : (e₁.keepLow (golden.alarm p.circuit)).nextVar ≤ e₂.nextVar := hInjects.le
  obtain ⟨relevant, environment, e₃, hJudge⟩ : ∃ ls u e, stepEnvironment p
      (golden.inputs p.circuit ++ golden.outputs p.circuit) r.environment e₂ = ((ls, u), e) :=
    ⟨_, _, _, rfl⟩
  have hGolden : golden.table.Below e₂.nextVar :=
    hDrives.bounded.mono ((Encoder.nextVar_keepLow _ e₁).symm.trans_le hOld)
  have hJudges := judges_stepEnvironment hInjects.valid
    (fun u hu => (h.environmentBelow u hu).mono (hLe.trans hOld))
    (List.forall_mem_append.mpr ⟨hGolden.map_read _, hGolden.map_read _⟩) hJudge
  refine ⟨golden, e₁, flips, faulty, e₂, relevant, environment, e₃,
    ⟨hTop, hDrives, hInjects, hJudges, fun hOpen => ?_, fun hClosed => ?_,
      fun t ht hDefinite => ?_⟩, ?_⟩
  · rw [hOpen] at hFaulty
    exact time_mem_faultyStage hFaulty
  · rw [hClosed] at hFaulty
    exact eq_of_faultyStage hFaulty
  · have hFolds := Unrolling.folds_drive (c := p.circuit) (e := r.encoder) (h.concrete t ht).golden
      hLength hDefinite
    rwa [hDrive] at hFolds
  · dsimp only
    rw [if_neg hTop, ← Encoder.keepLow_of_ne_top hTop, hFaulty]
    dsimp only
    rw [hJudge]

section Step

variable {golden faulty : Unrolling} {e₁ e₂ e₃ : Encoder} {flips : List (Nat × Lit)}
  {relevant : Option (List Lit)} {environment : Option Unrolling}
  (h : Tracks p M past location found r)
  (hStages : Stages p M location s levels r golden e₁ flips faulty e₂ relevant environment e₃)
include hStages

theorem Stages.le_injects : e₁.nextVar ≤ e₂.nextVar :=
  (Encoder.nextVar_keepLow _ e₁).symm.trans_le hStages.injects.le

theorem Stages.le : r.encoder.nextVar ≤ e₃.nextVar :=
  hStages.drives.le.trans (hStages.le_injects.trans hStages.judges.le)

theorem Stages.mem_models {ρ : Assignment} (hρ : ρ ∈ e₃.models M) :
    ρ ∈ r.encoder.models M ∧ ρ ∈ e₁.models M ∧ ρ ∈ e₂.models M ∧
      (golden.alarm p.circuit).holds ρ = false := by
  have hInjects := hStages.judges.subset hρ
  obtain ⟨hDrives, hLow⟩ :=
    (hStages.drives.valid.mem_models_keepLow hStages.low).mp (hStages.injects.subset hInjects)
  exact ⟨hStages.drives.subset hDrives, hDrives, hInjects, hLow⟩

theorem Stages.flips_subset : r.flips ⊆ flips := by
  rcases hStages.injects.grown with hSame | ⟨flip, hSnoc, _⟩
  · exact hSame ▸ List.Subset.refl _
  · exact hSnoc ▸ List.subset_append_left _ _

/-- A flip that is still pending was so before. -/
theorem Stages.pending {time : Nat} (hPending : Pending flips (r.time + 1) time) :
    Pending r.flips r.time time := by
  rcases hPending with hMem | hLe
  · rcases hStages.injects.grown with hSame | ⟨flip, hSnoc, _⟩
    · exact .inl (hSame ▸ hMem)
    · rw [hSnoc, List.map_append, List.mem_append] at hMem
      rcases hMem with hMem | hMem
      · exact .inl hMem
      · exact .inr (Nat.le_of_eq (List.mem_singleton.mp hMem).symm)
  · exact .inr (Nat.le_of_succ_le hLe)

theorem Stages.chooses {ρ : Assignment} {f : Fault}
    (hf : Chooses p.circuit location
      ((r.extended p levels golden faulty flips environment e₃).advance p) ρ f) :
    Chooses p.circuit location r ρ f :=
  ⟨hf.latch, hf.time.subset hStages.flips_subset, hStages.pending hf.pending⟩

theorem Stages.below_checks :
    Cnf.Below (e₃.nextVar + 1)
      (outputChecks p relevant golden faulty ++ (stateChecks p e₃.fresh.1 golden faulty).2) := by
  have hGolden : golden.table.Below (e₃.nextVar + 1) :=
    hStages.drives.bounded.mono
      ((hStages.le_injects.trans hStages.judges.le).trans (Nat.le_succ _))
  have hFaulty : faulty.table.Below (e₃.nextVar + 1) :=
    hStages.injects.bounded.mono (hStages.judges.le.trans (Nat.le_succ _))
  have hRelevant : ∀ ls, relevant = some ls → ∀ l ∈ ls, l.var < e₃.nextVar + 1 :=
    fun ls hls l hl => Nat.lt_succ_of_lt (hStages.judges.relevantBelow ls hls l hl)
  have hGuards : ∀ l ∈ relevant.getD ((golden.observed p.circuit).map fun _ => Lit.top),
      l.var < e₃.nextVar + 1 := by
    cases relevant with
    | some ls => exact hRelevant ls rfl
    | none =>
      intro l hl
      obtain ⟨_, _, rfl⟩ := List.mem_map.mp hl
      exact Nat.lt_succ_of_lt e₃.two_le_nextVar
  refine List.forall_mem_append.mpr ⟨List.forall_mem_append.mpr ⟨?_, ?_⟩, ?_⟩
  · exact below_agreement hGuards (hGolden.map_read _) (hFaulty.map_read _)
  · exact below_constraint hRelevant
  · refine below_convergence (e₃.var_fresh.trans_lt (Nat.lt_succ_self _)) ?_ ?_
    · exact fun l hl => hGolden.nextState p.circuit l (List.mem_of_mem_take hl)
    · exact fun l hl => hFaulty.nextState p.circuit l (List.mem_of_mem_take hl)

theorem Stages.environment_below : ∀ u ∈ ((r.extended p levels golden faulty flips environment
    e₃).advance p).environment, u.table.Below (e₃.nextVar + 1) := by
  intro u hu
  cases hEnv : p.environment with
  | none =>
    simp only [Runs.advance, hEnv] at hu
    cases hu
  | some env =>
    simp only [Runs.advance, hEnv] at hu
    obtain ⟨v, hv, rfl⟩ := Option.map_eq_some_iff.mp hu
    exact ((hStages.judges.bounded v hv).mono (Nat.le_succ _)).advance env

include h

theorem Tracks.time_eq {ρ : Assignment} (hρ : ρ ∈ e₃.models M) :
    r.time = (r.values ρ).length :=
  h.time.trans (h.sound ρ (hStages.mem_models hρ).1).admits.length_eq

theorem Tracks.golden_values {ρ : Assignment} (hρ : ρ ∈ e₃.models M) :
    golden.table.Values (Lit.holds ρ) ((p.circuit.run (r.values ρ)).step p.circuit
      ((golden.inputs p.circuit).map (Lit.holds ρ))) := by
  obtain ⟨hMem, hMem₁, _⟩ := hStages.mem_models hρ
  exact hStages.drives.values ρ hMem₁ _ (h.sound ρ hMem).golden

/-- The environment judges what it is shown. -/
theorem Tracks.judged {ρ : Assignment} (hρ : ρ ∈ e₃.models M) :
    Reads p ρ environment (fun env => (env.run (p.feeds (r.values ρ))).step env
      ((golden.inputs p.circuit).map (Lit.holds ρ) ++ ((p.circuit.run (r.values ρ)).step p.circuit
        ((golden.inputs p.circuit).map (Lit.holds ρ))).outputs p.circuit)) ∧
    relevant.map (fun ls => ls.map (Lit.holds ρ)) = p.verdict
      (r.values ρ ++ [(golden.inputs p.circuit).map (Lit.holds ρ)]) (r.values ρ).length := by
  have hFollows := h.sound ρ (hStages.mem_models hρ).1
  have hOutputs : (golden.outputs p.circuit).map (Lit.holds ρ) = _ :=
    (h.golden_values hStages hρ).outputs
      (evaluation_holds (hStages.judges.valid.mem_pinned hρ)) p.circuit
  have hValues := hStages.judges.values ρ hρ _ hFollows.environment
  rw [List.map_append, hOutputs] at hValues
  exact ⟨hValues.1, hValues.2.trans (verdict_snoc p _ _).symm⟩

/-- The last step shows what the replay of the chosen fault shows. -/
theorem Tracks.depicts {ρ : Assignment} (hρ : ρ ∈ e₃.models M) {f : Fault}
    (hf : Chooses p.circuit location
      ((r.extended p levels golden faulty flips environment e₃).advance p) ρ f) :
    Depicts ρ golden.table faulty.table (f.observe p.circuit (r.values ρ).length
      (f.run p.circuit (r.values ρ)) ((golden.inputs p.circuit).map (Lit.holds ρ))) := by
  obtain ⟨hMem, _, hMem₂, _⟩ := hStages.mem_models hρ
  constructor
  · change golden.table.Values _ ((f.run p.circuit _).1.step p.circuit _)
    rw [Fault.run_fst]
    exact h.golden_values hStages hρ
  · have hMatches := (h.sound ρ hMem).runs f (hStages.chooses hf)
    have hValues := hStages.injects.values ρ hMem₂ f hf.latch hf.time hf.pending _
      (hMatches.faulty.setAll p.circuit.inputs (golden.inputs p.circuit))
    rw [← h.time_eq hStages hρ]
    exact hValues.congr (Table.get_step_strike f rfl _ _)

theorem Tracks.mem_outputChecks {ρ : Assignment} (hρ : ρ ∈ e₃.models M) {f : Fault}
    (hf : Chooses p.circuit location
      ((r.extended p levels golden faulty flips environment e₃).advance p) ρ f) :
    ρ ∈ Cnf.models (outputChecks p relevant golden faulty) ↔
      Benign p (p.verdict (r.values ρ ++ [(golden.inputs p.circuit).map (Lit.holds ρ)])
        (r.values ρ).length) (f.observe p.circuit (r.values ρ).length
          (f.run p.circuit (r.values ρ)) ((golden.inputs p.circuit).map (Lit.holds ρ))) := by
  have hPinned := hStages.judges.valid.mem_pinned hρ
  have hDepicts := h.depicts hStages hρ hf
  rw [mem_models_outputChecks hPinned hDepicts, (h.judged hStages hρ).2]
  have hLow := (hDepicts.golden_alarm hPinned p.circuit).symm.trans (hStages.mem_models hρ).2.2.2
  exact ⟨fun hChecks => ⟨hLow, hChecks.1, hChecks.2⟩,
    fun hBenign => ⟨hBenign.outputs, hBenign.allowed⟩⟩

theorem Tracks.follows {ρ : Assignment} (hρ : ρ ∈ e₃.models M)
    (hChecks : ρ ∈ Cnf.models (outputChecks p relevant golden faulty)) :
    Follows p (past ++ [levels]) location found
      ((r.extended p levels golden faulty flips environment e₃).advance p) ρ := by
  obtain ⟨hMem, hMem₁, hMem₂, _⟩ := hStages.mem_models hρ
  have hPinned := hStages.judges.valid.mem_pinned hρ
  have hev := evaluation_holds hPinned
  have hFollows := h.sound ρ hMem
  have hValues : ((r.extended p levels golden faulty flips environment e₃).advance p).values ρ =
      r.values ρ ++ [(golden.inputs p.circuit).map (Lit.holds ρ)] := List.map_append
  refine ⟨hFollows.atMostOne, hStages.injects.atMostOnce ρ hMem₂ hFollows.atMostOnce, ?_, ?_, ?_,
    fun f hf => ⟨?_, ?_, ?_, ?_⟩⟩
  · rw [hValues]
    exact hFollows.admits.snoc (hStages.drives.admits ρ hMem₁)
  · rw [hValues, Circuit.run_snoc]
    exact (h.golden_values hStages hρ).advance hev p.circuit
  · rw [hValues, feeds_snoc]
    have hNext := (h.judged hStages hρ).1.advance hPinned
    simp only [Circuit.run_snoc]
    exact hNext
  · rw [hValues, Fault.run_snoc]
    exact (h.depicts hStages hρ hf).faulty.advance hev p.circuit
  · rw [hValues, harmless_snoc]
    exact ⟨(hFollows.runs f (hStages.chooses hf)).harmless,
      (h.mem_outputChecks hStages hρ hf).mp hChecks⟩
  · rw [hValues, Fault.replay_snoc, List.map_append,
      ← (hFollows.runs f (hStages.chooses hf)).alarms, List.map_singleton,
      ← (h.depicts hStages hρ hf).faulty_alarm hPinned p.circuit]
    exact List.map_append
  · exact (hFollows.runs f (hStages.chooses hf)).unfound

theorem Tracks.flipsBelow_injects : ∀ x ∈ flips, x.2.var < e₂.nextVar := by
  have hOld : ∀ x ∈ r.flips, x.2.var < e₂.nextVar := fun x hx =>
    lt_of_lt_of_le (h.flipsBelow x hx) (hStages.drives.le.trans hStages.le_injects)
  rcases hStages.injects.grown with hSame | ⟨flip, hSnoc, hFlip⟩
  · exact hSame ▸ hOld
  · rw [hSnoc, List.forall_mem_append, List.forall_mem_singleton]
    exact ⟨hOld, hFlip⟩

/-- Every harmless fault that is left is chosen by some model, with the check of the step
switched on or off. -/
theorem Tracks.exists_chooses {k : Component} (hk : k ∈ location.components) {time : Nat}
    (hPending : Pending flips (r.time + 1) time) (hUnfound : ⟨k.index, time⟩ ∉ found)
    {inputs : List (List Bool)} (hAdmits : AdmitsSteps (past ++ [levels]) inputs)
    (hHarmless : Harmless p ⟨k.index, time⟩ inputs) (b : Bool) :
    ∃ ρ ∈ e₃.models M, Chooses p.circuit location
        ((r.extended p levels golden faulty flips environment e₃).advance p) ρ ⟨k.index, time⟩ ∧
      r.values ρ ++ [(golden.inputs p.circuit).map (Lit.holds ρ)] = inputs ∧
      Meets ρ r.done ∧ e₃.fresh.1.holds ρ = b := by
  obtain ⟨ys, xs, rfl, hPast, hStep⟩ := hAdmits.exists_snoc
  obtain ⟨hHarmless, hBenign⟩ := harmless_snoc.mp hHarmless
  obtain ⟨ρ, hρ, hChooses, hValues, hDone⟩ :=
    h.complete k hk time (hStages.pending hPending) hUnfound ys hPast hHarmless
  -- The assignment is extended by one stage after the other, and then to the check.
  obtain ⟨ρ₁, hρ₁, hAgree₁, hInputs⟩ := hStages.drives.lift ρ hρ xs hStep
  have hLow : (golden.alarm p.circuit).holds ρ₁ = false := by
    have hGolden := (h.sound ρ₁ (hStages.drives.subset hρ₁)).golden
    rw [← h.values_congr hAgree₁, hValues] at hGolden
    have hTable := hStages.drives.values ρ₁ hρ₁ _ hGolden
    rw [hInputs] at hTable
    have hEvaluation := evaluation_holds (hStages.drives.valid.mem_pinned hρ₁)
    refine (hTable.alarm hEvaluation p.circuit).trans ?_
    have hGoldenLow := hBenign.golden
    change ((Fault.run _ _ _).1.step _ _).alarm _ = false at hGoldenLow
    rwa [Fault.run_fst] at hGoldenLow
  have hKept : ρ₁ ∈ (e₁.keepLow (golden.alarm p.circuit)).models M :=
    (hStages.drives.valid.mem_models_keepLow hStages.low).mpr ⟨hρ₁, hLow⟩
  obtain ⟨ρ₂, hρ₂, hAgree₂, hTime⟩ := hStages.injects.lift ρ₁ hKept time
    (hChooses.time.congr hAgree₁ h.flipsBelow)
  rw [Encoder.nextVar_keepLow] at hAgree₂
  obtain ⟨ρ₃, hρ₃, hAgree₃⟩ := hStages.judges.lift ρ₂ hρ₂
  have hAgree₄ := AgreeBelow.update e₃.nextVar ρ₃ b
  have hLate : AgreeBelow e₂.nextVar ρ₂ (Function.update ρ₃ e₃.nextVar b) :=
    hAgree₃.trans (hAgree₄.mono hStages.judges.le)
  have hInner : AgreeBelow e₁.nextVar ρ₁ (Function.update ρ₃ e₃.nextVar b) :=
    hAgree₂.trans (hLate.mono hStages.le_injects)
  have hAgree : AgreeBelow r.encoder.nextVar ρ (Function.update ρ₃ e₃.nextVar b) :=
    hAgree₁.trans (hInner.mono hStages.drives.le)
  have hLast : (golden.inputs p.circuit).map (Lit.holds (Function.update ρ₃ e₃.nextVar b)) = xs :=
    (hInner.map_holds (hStages.drives.bounded.map_read p.circuit.inputs)).symm.trans hInputs
  refine ⟨_, hStages.judges.valid.update_mem hρ₃ b, ⟨?_, ?_, hPending⟩, ?_,
    hAgree.meets h.doneBelow hDone, ?_⟩
  · exact hChooses.latch.congr hAgree h.selectorsBelow
  · exact hTime.congr hLate (h.flipsBelow_injects hStages)
  · rw [← h.values_congr hAgree, hValues, hLast]
  · rw [Encoder.holds_fresh, Function.update_self]

variable (hFree : p.mode.freeInputs = false → s.hasFree = false)
  (hSteps : s.steps.take (past.length + 1) = past ++ [levels])
include hFree hSteps

theorem Tracks.folds {t : Table Bool} (ht : t ∈ r.concrete) :
    golden.table.Folds (t.step p.circuit (levels.map Level.toBool)) ∧
      (t.step p.circuit (levels.map Level.toBool)).alarm p.circuit = false := by
  have hMem : levels ∈ s.steps :=
    List.mem_of_mem_take (hSteps ▸ List.mem_append_right _ (List.mem_singleton_self _))
  have hFolds := hStages.folds t ht
    (Stimulus.ne_free_of_hasFree (hFree (h.concrete t ht).definite) levels hMem)
  refine ⟨hFolds, Bool.eq_false_iff.mpr fun hTrue => hStages.low ?_⟩
  have hAlarm := hFolds.alarm p.circuit
  rw [hTrue] at hAlarm
  exact hAlarm

theorem Tracks.settles : Settles p s past levels location
    (settle p s r.time (r.stepped p levels) location) := by
  rw [h.time]
  exact settles_settle h.concrete (fun t ht => (h.folds hStages hFree hSteps ht).2) hFree hSteps

end Step

/-- What has been told at the end of a step. -/
def told (M : Set Assignment) (x : Extension) : Set Assignment :=
  M ∩ Cnf.models x.clauses ∩ (Cnf.models x.checks ∩ Clause.models x.alarm)

/-- The faults found so far, with the one that is settled by the step. -/
def Extension.settled (x : Extension) (found : List Fault) : List Fault :=
  found ++ x.immediate.toList.map SuperfluousTrace.fault

theorem mem_told {r : Runs} {golden faulty : Unrolling} {e : Encoder}
    {immediate : Option SuperfluousTrace} {relevant : Option (List Lit)} {ρ : Assignment} :
    ρ ∈ told M (r.extension p golden faulty e immediate relevant) ↔
      ρ ∈ e.models M ∧ ρ ∈ Cnf.models (outputChecks p relevant golden faulty) ∧
        ρ ∈ Cnf.models (stateChecks p e.fresh.1 golden faulty).2 ∧
        ρ ∈ Clause.models (r.alarms ++ [faulty.alarm p.circuit] ++ [e.fresh.1]) := by
  refine and_congr_right fun _ => ?_
  rw [← and_assoc, ← Cnf.mem_models_append]
  rfl

theorem mem_models_raised {c : Circuit} {ρ : Assignment} {ls : List Lit} {os : List Observation}
    (h : ls.map (Lit.holds ρ) = os.map fun o => o.faulty.alarm c) :
    ρ ∈ Clause.models ls ↔ ∃ o ∈ os, o.faulty.alarm c = true := by
  have hLits : ρ ∈ Clause.models ls ↔ true ∈ ls.map (Lit.holds ρ) := by
    rw [Clause.mem_models, List.mem_map]
  rw [hLits, h, List.mem_map]

section Extend

variable {golden faulty : Unrolling} {e₁ e₂ e₃ : Encoder} {flips : List (Nat × Lit)}
  {relevant : Option (List Lit)} {environment : Option Unrolling}
  (h : Tracks p M past location found r)
  (hStages : Stages p M location s levels r golden e₁ flips faulty e₂ relevant environment e₃)
include h hStages

theorem Tracks.flips_nodup :
    (flips.map Prod.fst).Nodup ∧ ∀ x ∈ flips, x.1 < r.time + 1 := by
  have hOld : ∀ x ∈ r.flips, x.1 < r.time + 1 := fun x hx => Nat.lt_succ_of_lt (h.times x hx)
  rcases hStages.injects.grown with rfl | ⟨flip, rfl, _⟩
  · exact ⟨h.distinct, hOld⟩
  · rw [List.map_append, List.nodup_append, List.forall_mem_append, List.forall_mem_singleton]
    refine ⟨⟨h.distinct, List.nodup_singleton _, fun a ha b hb hEq => ?_⟩, hOld,
      Nat.lt_succ_self _⟩
    obtain ⟨x, hx, rfl⟩ := List.mem_map.mp ha
    rw [List.mem_singleton.mp hb] at hEq
    exact Nat.ne_of_lt (h.times x hx) hEq

/-- With the check of the step switched on, a model chooses a fault that recovers in it. -/
theorem Tracks.recovers_of_told {immediate : Option SuperfluousTrace} {ρ : Assignment}
    (hρ : ρ ∈ told M (r.extension p golden faulty e₃ immediate relevant))
    (hMeets : Meets ρ (r.extension p golden faulty e₃ immediate relevant).assumptions) {f : Fault}
    (hf : Chooses p.circuit location
      ((r.extended p levels golden faulty flips environment e₃).advance p) ρ f) :
    Recovers p f ((r.extended p levels golden faulty flips environment e₃).values ρ) := by
  obtain ⟨hMem, hChecks, hState, hAlarm⟩ := mem_told.mp hρ
  have hPinned := hStages.judges.valid.mem_pinned hMem
  obtain ⟨hDone, hConstants⟩ := meets_append.mp hMeets
  have hOn : e₃.fresh.1.holds ρ = false := by
    have hLast := (meets_append.mp hDone).2 _ (List.mem_singleton_self _)
    rwa [Lit.holds_neg, Bool.not_eq_true'] at hLast
  have hMatches := (h.follows hStages hMem hChecks).runs f hf
  have hRaised := (Encoder.mem_models_snoc.mp hAlarm).resolve_right (by rw [hOn]; decide)
  have hShown := (mem_models_raised hMatches.alarms).mp hRaised
  have hGone := (stateChecks_iff hPinned hOn (h.depicts hStages hMem hf)).mp ⟨hConstants, hState⟩
  have hHarmless := hMatches.harmless
  have hValues : (r.extended p levels golden faulty flips environment e₃).values ρ =
      r.values ρ ++ [(golden.inputs p.circuit).map (Lit.holds ρ)] := List.map_append
  change Harmless p f ((r.extended p levels golden faulty flips environment e₃).values ρ)
    at hHarmless
  change ∃ o ∈ f.replay p.circuit ((r.extended p levels golden faulty flips environment
    e₃).values ρ), _ at hShown
  rw [hValues] at hHarmless hShown ⊢
  exact recovers_snoc.mpr ⟨hHarmless, hShown, hGone⟩

/-- A fault that recovers in the step is chosen by a model with the check switched on. -/
theorem Tracks.exists_told {immediate : Option SuperfluousTrace} {k : Component}
    (hk : k ∈ location.components) {time : Nat} (hPending : Pending flips (r.time + 1) time)
    (hUnfound : ⟨k.index, time⟩ ∉ found) {inputs : List (List Bool)}
    (hAdmits : AdmitsSteps (past ++ [levels]) inputs)
    (hRecovers : Recovers p ⟨k.index, time⟩ inputs) :
    ∃ ρ ∈ told M (r.extension p golden faulty e₃ immediate relevant),
      Chooses p.circuit location
        ((r.extended p levels golden faulty flips environment e₃).advance p) ρ ⟨k.index, time⟩ ∧
      Meets ρ (r.extension p golden faulty e₃ immediate relevant).assumptions := by
  obtain ⟨ρ, hρ, hChooses, rfl, hDone, hOn⟩ :=
    h.exists_chooses hStages hk hPending hUnfound hAdmits hRecovers.harmless false
  have hPinned := hStages.judges.valid.mem_pinned hρ
  obtain ⟨hHarmless, hShown, hGone⟩ := recovers_snoc.mp hRecovers
  have hChecks := (h.mem_outputChecks hStages hρ hChooses).mpr (harmless_snoc.mp hHarmless).2
  have hMatches := (h.follows hStages hρ hChecks).runs _ hChooses
  have hValues : ((r.extended p levels golden faulty flips environment e₃).advance p).values ρ =
      r.values ρ ++ [(golden.inputs p.circuit).map (Lit.holds ρ)] := List.map_append
  have hAlarms := hMatches.alarms
  rw [hValues] at hAlarms
  obtain ⟨hConstants, hState⟩ :=
    (stateChecks_iff hPinned hOn (h.depicts hStages hρ hChooses)).mpr hGone
  refine ⟨ρ, mem_told.mpr ⟨hρ, hChecks, hState, ?_⟩, hChooses, ?_⟩
  · exact Encoder.mem_models_snoc.mpr (.inl ((mem_models_raised hAlarms).mpr hShown))
  · refine meets_append.mpr ⟨meets_append.mpr ⟨hDone, meets_singleton.mpr ?_⟩, hConstants⟩
    rw [Lit.holds_neg, hOn]
    rfl

variable (hFree : p.mode.freeInputs = false → s.hasFree = false)
  (hSteps : s.steps.take (past.length + 1) = past ++ [levels])
include hFree hSteps

/-- A flip that is pending is not the one settled by the step. -/
theorem Tracks.notMem_settled {f : Fault} (hPending : Pending flips (r.time + 1) f.time)
    (hUnfound : f ∉ found) :
    f ∉ (r.extension p golden faulty e₃ (settle p s r.time (r.stepped p levels) location).2
      relevant).settled found := by
  have hSettles := h.settles hStages hFree hSteps
  have hClosed := hStages.closed
  rw [Extension.settled, Runs.extension]
  generalize settle p s r.time (r.stepped p levels) location = y at hSettles hClosed
  rw [List.mem_append, not_or]
  refine ⟨hUnfound, ?_⟩
  cases hSettles with
  | pending | harmful => exact List.not_mem_nil
  | immediate hFlip hReplays =>
    intro hMem
    have hTime : f.time = r.time := by
      rw [List.mem_singleton.mp hMem, h.time]
      exact hFlip
    rw [hClosed rfl] at hPending
    rcases hPending with hOld | hLate
    · obtain ⟨x, hx, hEq⟩ := List.mem_map.mp hOld
      exact Nat.ne_of_lt (h.times x hx) (hEq.trans hTime)
    · exact Nat.not_succ_le_self _ (hTime ▸ hLate)

/-- The flips that are settled after the step have been found, or they do harm. -/
theorem Tracks.settled_step {k : Component} (hk : k ∈ location.components) {time : Nat}
    (hTime : time < r.time + 1) (hNot : time ∉ flips.map Prod.fst) :
    ⟨k.index, time⟩ ∈ (r.extension p golden faulty e₃
        (settle p s r.time (r.stepped p levels) location).2 relevant).settled found ∨
      ∀ inputs, AdmitsSteps (past ++ [levels]) inputs → ¬ Harmless p ⟨k.index, time⟩ inputs := by
  by_cases hOld : time < r.time
  · have hNotOld : time ∉ r.flips.map Prod.fst := fun hMem =>
      hNot (List.map_subset _ hStages.flips_subset hMem)
    refine (h.settled k hk time hOld hNotOld).imp (List.mem_append_left _) fun hHarm => ?_
    intro inputs hAdmits hHarmless
    obtain ⟨ys, xs, rfl, hPast, _⟩ := hAdmits.exists_snoc
    exact hHarm ys hPast (harmless_snoc.mp hHarmless).1
  · obtain rfl : time = r.time := by omega
    have hSettles := h.settles hStages hFree hSteps
    have hOpened := hStages.opened
    rw [Extension.settled, Runs.extension]
    generalize settle p s r.time (r.stepped p levels) location = y at hSettles hOpened
    cases hSettles with
    | pending => exact absurd (hOpened rfl) hNot
    | harmful hHarm =>
      right
      rw [List.mem_singleton.mp hk, h.time]
      exact hHarm
    | immediate hFlip hReplays =>
      left
      refine List.mem_append_right _ (List.mem_singleton.mpr ?_)
      rw [List.mem_singleton.mp hk, SuperfluousTrace.fault, hFlip, h.time]

theorem Tracks.earlier_step : ∀ f ∈ (r.extension p golden faulty e₃
    (settle p s r.time (r.stepped p levels) location).2 relevant).settled found,
    f.time < r.time + 1 := by
  have hSettles := h.settles hStages hFree hSteps
  rw [Extension.settled, Runs.extension, List.forall_mem_append]
  refine ⟨fun f hf => Nat.lt_succ_of_lt (h.earlier f hf), ?_⟩
  generalize settle p s r.time (r.stepped p levels) location = y at hSettles
  cases hSettles with
  | pending | harmful => exact List.forall_mem_nil _
  | immediate hFlip hReplays =>
    intro f hf
    rw [List.mem_singleton.mp hf, h.time]
    exact Nat.lt_succ_of_le (Nat.le_of_eq hFlip)

/-- The runs after the step, with its checks in force. -/
theorem Tracks.extend :
    let x := r.extension p golden faulty e₃ (settle p s r.time (r.stepped p levels) location).2
      relevant
    Tracks p (told M x) (past ++ [levels]) location (x.settled found)
      ((r.extended p levels golden faulty flips environment e₃).advance p) := by
  intro x
  have hOff : e₃.fresh.1.var < e₃.nextVar + 1 := e₃.var_fresh.trans_lt (Nat.lt_succ_self _)
  have hOld : ∀ {n : Nat}, n < r.encoder.nextVar → n < e₃.nextVar + 1 :=
    fun hn => lt_of_lt_of_le hn (hStages.le.trans (Nat.le_succ _))
  have hGolden : golden.table.Below (e₃.nextVar + 1) := hStages.drives.bounded.mono
    ((hStages.le_injects.trans hStages.judges.le).trans (Nat.le_succ _))
  have hFaulty : faulty.table.Below (e₃.nextVar + 1) := hStages.injects.bounded.mono
    (hStages.judges.le.trans (Nat.le_succ _))
  have hAlarms : ∀ l ∈ r.alarms ++ [faulty.alarm p.circuit], l.var < e₃.nextVar + 1 := by
    rw [List.forall_mem_append, List.forall_mem_singleton]
    exact ⟨fun l hl => hOld (h.alarmsBelow l hl),
      hFaulty.alarm (e₃.two_le_nextVar.trans (Nat.le_succ _)) p.circuit⟩
  have hClause : ∀ l ∈ x.alarm, l.var < e₃.nextVar + 1 := by
    change ∀ l ∈ r.alarms ++ [faulty.alarm p.circuit] ++ [e₃.fresh.1], _
    rw [List.forall_mem_append, List.forall_mem_singleton]
    exact ⟨hAlarms, hOff⟩
  have hTold : ((r.extended p levels golden faulty flips environment e₃).advance
      p).encoder.models (told M x) = told M x := Encoder.models_eq_of_pending rfl
  obtain ⟨hDistinct, hTimes⟩ := h.flips_nodup hStages
  -- Apart from bounds there is what the session stands for: its models are faults that have been
  -- harmless, and each of these faults has a model.
  refine ⟨h.fits, ?_, fun l hl => hOld (h.selectorsBelow l hl), ?_, hAlarms, ?_, ?_,
    hGolden.advance p.circuit, hFaulty.advance p.circuit, hStages.environment_below, ?_, ?_, hTimes,
    hDistinct, ?_, h.earlier_step hStages hFree hSteps, ?_, ?_, ?_⟩
  · refine hStages.judges.valid.fresh.take.inter fun ρ hρ ρ' hAgree => ⟨?_, ?_⟩
    · exact hStages.below_checks.models hAgree hρ.1
    · exact (Clause.mem_models_congr fun l hl => hAgree l.var (hClause l hl)).mp hρ.2
  · exact fun y hy => lt_of_lt_of_le (h.flipsBelow_injects hStages y hy)
      (hStages.judges.le.trans (Nat.le_succ _))
  · change ∀ l ∈ r.done ++ [e₃.fresh.1], _
    rw [List.forall_mem_append, List.forall_mem_singleton]
    exact ⟨fun l hl => hOld (h.doneBelow l hl), hOff⟩
  · change ∀ ls ∈ r.inputs ++ [golden.inputs p.circuit], _
    rw [List.forall_mem_append, List.forall_mem_singleton]
    exact ⟨fun ls hls l hl => hOld (h.inputsBelow ls hls l hl), hGolden.map_read _⟩
  · change ∀ ls ∈ r.inputs ++ [golden.inputs p.circuit], _
    rw [List.forall_mem_append, List.forall_mem_singleton]
    exact ⟨fun ls hls l hl => (h.known ls hls l hl).imp_right fun hMem =>
      hStages.drives.opened hMem, hStages.drives.known⟩
  · change r.time + 1 = _
    rw [h.time, List.length_append, List.length_singleton]
  · intro t' ht'
    obtain ⟨t₁, ht₁, rfl⟩ := Option.map_eq_some_iff.mp ht'
    obtain ⟨t, ht, rfl⟩ := Option.map_eq_some_iff.mp ht₁
    obtain ⟨hFolds, hLow⟩ := h.folds hStages hFree hSteps ht
    exact (h.concrete t ht).advance hLow hFolds
  · exact fun k hk time hTime hNot => h.settled_step hStages hFree hSteps hk hTime hNot
  · intro ρ hρ
    rw [hTold] at hρ
    obtain ⟨hMem, hChecks, _⟩ := mem_told.mp hρ
    have hFollows := h.follows hStages hMem hChecks
    refine ⟨hFollows.atMostOne, hFollows.atMostOnce, hFollows.admits, hFollows.golden,
      hFollows.environment, fun f hf => ?_⟩
    obtain ⟨hValues, hHarmless, hRaised, hUnfound⟩ := hFollows.runs f hf
    exact ⟨hValues, hHarmless, hRaised,
      h.notMem_settled hStages hFree hSteps hf.pending hUnfound⟩
  · intro k hk time hPending hNot inputs hAdmits hHarmless
    obtain ⟨ρ, hρ, hChooses, hValues, hDone, hTrue⟩ := h.exists_chooses hStages hk hPending
      (fun hMem => hNot (List.mem_append_left _ hMem)) hAdmits hHarmless true
    have hBenign := (harmless_snoc.mp (hValues ▸ hHarmless)).2
    refine ⟨ρ, ?_, hChooses, ?_, ?_⟩
    · rw [hTold]
      exact mem_told.mpr ⟨hρ, (h.mem_outputChecks hStages hρ hChooses).mpr hBenign,
        mem_models_convergence_of_off hTrue, Encoder.mem_models_snoc.mpr (.inr hTrue)⟩
    · rw [← hValues]
      exact List.map_append
    · exact meets_append.mpr ⟨hDone, meets_singleton.mpr hTrue⟩

end Extend

/-- A step that is encoded, handed over and moved on from. -/
structure Grows (p : Problem) (M : Set Assignment) (past : List (List Level))
    (levels : List Level) (location : Location) (s : Stimulus) (found : List Fault)
    (x : Extension) (r : Runs) : Prop where
  tracks : Tracks p (told M x) (past ++ [levels]) location (x.settled found) (r.advance p)
  handed : r.encoder.pending = #[]
  immediate : ∀ t ∈ x.immediate,
    Replays p s t ∧ t.component ∈ location.components ∧ t.flip = past.length
  shows : ∀ ρ ∈ told M x, Meets ρ x.assumptions → ∀ f,
    Chooses p.circuit location (r.advance p) ρ f → Recovers p f (r.values ρ)
  reaches : ∀ k ∈ location.components, ∀ time, Pending r.flips (r.time + 1) time →
    ⟨k.index, time⟩ ∉ x.settled found → ∀ inputs, AdmitsSteps (past ++ [levels]) inputs →
    Recovers p ⟨k.index, time⟩ inputs →
    ∃ ρ ∈ told M x, Chooses p.circuit location (r.advance p) ρ ⟨k.index, time⟩ ∧
      Meets ρ x.assumptions

theorem Tracks.step (h : Tracks p M past location found r)
    (hLength : levels.length = p.circuit.inputs.length)
    (hFree : p.mode.freeInputs = false → s.hasFree = false)
    (hSteps : s.steps.take (past.length + 1) = past ++ [levels]) {x : Extension} {r' : Runs}
    (hStep : r.step p location s levels = some (x, r')) :
    Grows p M past levels location s found x r' := by
  rcases h.stages (s := s) hLength with hNone | ⟨golden, e₁, flips, faulty, e₂, relevant,
    environment, e₃, hStages, hEq⟩
  · rw [hNone] at hStep
    cases hStep
  rw [hEq] at hStep
  cases hStep
  refine ⟨h.extend hStages hFree hSteps, rfl, ?_, ?_, ?_⟩
  · have hSettles := h.settles hStages hFree hSteps
    rw [Runs.extension]
    generalize settle p s r.time (r.stepped p levels) location = y at hSettles
    cases hSettles with
    | pending | harmful =>
      intro t ht
      cases ht
    | immediate hFlip hReplays =>
      rintro t ⟨⟩
      exact ⟨hReplays, List.mem_singleton_self _, hFlip⟩
  · exact fun ρ hρ hMeets f hf => h.recovers_of_told hStages hρ hMeets hf
  · intro k hk time hPending hNot inputs hAdmits hRecovers
    exact h.exists_told hStages hk hPending (fun hMem => hNot (List.mem_append_left _ hMem)) hAdmits
      hRecovers

end SoftError.Superfluous

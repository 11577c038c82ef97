import SoftError.Proofs.Vulnerability.OneShotStep

/-!
# The formula of the one-shot search

The unrolled formula stands for the faults of one latch that have shown no alarm so far: its
models choose a step for the flip and inputs, and under each of them the runs are those of the
chosen fault. A step never fails, as all variables of the transition relation are named. It keeps
this up, and the models of its check are the faults that err there.
-/

namespace SoftError.Vulnerability.OneShot

variable (c : Circuit)

/-- An assignment makes the runs those of the fault that it chooses. -/
structure Follows (past : List (List Level)) (k : Component) (r : Runs) (ρ : Assignment) :
    Prop where
  atMostOnce : AtMostOne ρ r.flips
  admits : AdmitsSteps past (r.values ρ)
  runs : ∀ time, Picks ρ (numbered r.flips) time →
    r.Starts c ρ ((⟨k.index, time⟩ : Fault).run c (r.values ρ)) ∧
      Quiet c past ((⟨k.index, time⟩ : Fault).replay c (r.values ρ))

/-- The models of the unrolled formula are the faults that have shown no alarm, with their inputs. -/
structure Tracks (past : List (List Level)) (k : Component) (r : Runs) : Prop where
  valid : r.encoder.Valid r.unrolled.models
  handed : r.encoder.pending = #[]
  alike : Alike (r.golden.table, r.encoder)
    ((Unrolling.solo c past).1.table, (Unrolling.solo c past).2)
  flipsBelow : ∀ l ∈ r.flips, l.var < r.encoder.nextVar
  inputsBelow : ∀ ls ∈ r.inputs, ∀ l ∈ ls, l.var < r.encoder.nextVar
  goldenBelow : r.golden.table.Below r.encoder.nextVar
  stateBelow : ∀ l ∈ r.state, l.var < r.encoder.nextVar
  stateLength : r.state.length = c.latches.length
  known : ∀ ls ∈ r.inputs, ∀ l ∈ ls, l.isConstant = true ∨ l.var ∈ r.opened.map Lit.var
  length : r.flips.length = past.length
  sound : ∀ ρ ∈ r.unrolled.models, Follows c past k r ρ
  complete : ∀ time inputs, AdmitsSteps past inputs →
    Quiet c past ((⟨k.index, time⟩ : Fault).replay c inputs) →
    ∃ ρ ∈ r.unrolled.models, Picks ρ (numbered r.flips) time ∧ r.values ρ = inputs

theorem models_initial : (Runs.initial c).unrolled.models = pinned := by
  rw [← Clause.models_top]
  ext ρ
  change ρ ∈ Cnf.models [Transition.constant] ↔ _
  rw [Cnf.mem_models]
  exact List.forall_mem_singleton

theorem tracks_initial (k : Component) : Tracks c [] k (.initial c) := by
  have hTwo : 2 ≤ (Runs.initial c).encoder.nextVar := Encoder.two_le_nextVar _
  have hBelow : (Runs.initial c).golden.table.Below (Runs.initial c).encoder.nextVar :=
    Table.below_initial hTwo c
  refine ⟨?_, rfl, Alike.initial rfl rfl, List.forall_mem_nil _, List.forall_mem_nil _, hBelow,
    ?_, List.length_map _, List.forall_mem_nil _, rfl, ?_, ?_⟩
  · rw [models_initial]
    exact Encoder.valid_empty rfl fun cache hSome => by cases hSome
  · intro l hl
    obtain ⟨latch, _, rfl⟩ := List.mem_map.mp hl
    exact hBelow.read latch.signal
  · intro ρ hρ
    rw [models_initial] at hρ
    have hev := evaluation_holds hρ
    have hInitial := Table.values_initial hev c
    refine ⟨.nil, .nil, fun time _ => ⟨⟨hInitial, ?_, Fault.get_run_zero c _ []⟩, .nil⟩⟩
    exact hInitial.state hev c
  · intro time inputs hAdmits _
    cases hAdmits
    refine ⟨fun _ => false, ?_, List.forall_mem_nil _, rfl⟩
    rw [models_initial]
    rfl

variable {c} {t : Transition} {past : List (List Level)} {k : Component} {r : Runs}
  {levels : List Level}

theorem Tracks.models_eq (h : Tracks c past k r) :
    r.encoder.models r.unrolled.models = r.unrolled.models :=
  Encoder.models_eq_of_pending h.handed

/-- A step succeeds, with all its parts as specified. -/
theorem Tracks.stages (h : Tracks c past k r) (ht : Transition.ofCircuit c = .ok t)
    (hLevels : levels.length = c.inputs.length) :
    ∃ flip n opened e₁ copy alarm golden e₂ difference e₃,
      Stages c k levels r flip n opened e₁ copy alarm golden e₂ difference e₃ ∧
      (r.golden.setInputs c (inputLits c n)).step c e₁ = (golden, e₂) ∧
      (∃ ρ, ρ ∈ copy.models) ∧
      r.step c t k levels =
        .ok ((r.extended c flip n opened copy alarm golden e₃).unrolled ++
          (Clause.fold difference).toList, n, r.extended c flip n opened copy alarm golden e₃) := by
  obtain ⟨flip, n, opened, e₁, hEq⟩ : ∃ flip n opened e₁,
      naming c t k.index levels r.state r.encoder = ((flip, n, opened), e₁) := ⟨_, _, _, _, rfl⟩
  have hNaming := naming_spec ht h.valid h.stateBelow h.stateLength hLevels hEq
  obtain ⟨copy, hCopy, hModel⟩ := hNaming.exists_copy hLevels
  obtain ⟨alarm, hAlarm, _⟩ := Transition.ofCircuit_eq_ok ht
  obtain ⟨golden, e₂, hGolden⟩ : ∃ golden e₂,
      (r.golden.setInputs c (inputLits c n)).step c e₁ = (golden, e₂) := ⟨_, _, rfl⟩
  have hPerforms := Unrolling.performs_step (c := c) (u := r.golden.setInputs c (inputLits c n))
    hNaming.valid ((h.goldenBelow.mono hNaming.le).setAll c.inputs hNaming.inputsBelow)
  rw [hGolden] at hPerforms
  have hLow : (e₂.keepLow (golden.alarm c)).Valid r.unrolled.models :=
    hPerforms.valid.keepLow (hPerforms.bounded.alarm e₂.two_le_nextVar c)
  have hGoldenLits : ∀ l ∈ golden.observed c, l.var < (e₂.keepLow (golden.alarm c)).nextVar := by
    rw [Encoder.nextVar_keepLow]
    exact hPerforms.bounded.map_read _
  have hFaultyLits : ∀ l ∈ c.observed.map (fun s => n.lit s.lit),
      l.var < (e₂.keepLow (golden.alarm c)).nextVar := by
    rw [Encoder.nextVar_keepLow, List.forall_mem_map]
    exact fun s hs => lt_of_lt_of_le
      (hNaming.lit_below (c.mem_named_of_uses (c.observed_subset_uses hs))) hPerforms.le
  have hTells := hLow.differs (by simp [Unrolling.observed, Table.observed]) hGoldenLits hFaultyLits
  obtain ⟨difference, e₃, hDiffers⟩ : ∃ difference e₃,
      (e₂.keepLow (golden.alarm c)).differs (golden.observed c)
        (c.observed.map fun s => n.lit s.lit) = (difference, e₃) := ⟨_, _, rfl⟩
  rw [hDiffers] at hTells
  exact ⟨flip, n, opened, e₁, copy, alarm, golden, e₂, difference, e₃,
    ⟨h.flipsBelow, h.stateBelow, h.goldenBelow, hNaming, hCopy, hAlarm, hPerforms, hTells⟩, hGolden,
    hModel, step_eq_ok ht hEq hCopy hAlarm hGolden hDiffers⟩

section Step

variable (h : Tracks c past k r) (hLevels : levels.length = c.inputs.length) {flip : Lit}
  {n : Names} {opened : List Lit} {e₁ e₂ e₃ : Encoder} {copy : Cnf} {alarm : Signal}
  {golden : Unrolling} {difference : Clause}
  (hStages : Stages c k levels r flip n opened e₁ copy alarm golden e₂ difference e₃)
  (hGolden : (r.golden.setInputs c (inputLits c n)).step c e₁ = (golden, e₂))
include h hLevels hStages hGolden

theorem Tracks.alike_step : Alike (golden.table, e₂)
    ((Unrolling.drive c (Unrolling.solo c past) levels).1.table,
      (Unrolling.drive c (Unrolling.solo c past) levels).2) := by
  have hAlike := h.alike.step_setInputs (c := c) hStages.naming.levelLits
    (hStages.naming.plain h.alike.plain) hLevels
  rwa [hGolden] at hAlike

theorem Tracks.unseen_iff {o : Observation} :
    Unseen c ((Unrolling.drive c (Unrolling.solo c past) levels).1.alarm c) o ↔
      Unseen c (golden.alarm c) o := by
  have hConstant : (golden.alarm c).isConstant =
      ((Unrolling.drive c (Unrolling.solo c past) levels).1.alarm c).isConstant :=
    (h.alike_step hLevels hStages hGolden).isConstant_alarm
  rw [Unseen, Unseen, hConstant]

/-- The last step shows what the replay of the chosen fault shows. -/
theorem Tracks.shows {ρ : Assignment}
    (hρ : ρ ∈ (r.extended c flip n opened copy alarm golden e₃).unrolled.models) {f : Fault}
    (hf : f.latch = k.index)
    (hPicks : Picks ρ (numbered (r.extended c flip n opened copy alarm golden e₃).flips) f.time) :
    ∃ ys xs, (r.extended c flip n opened copy alarm golden e₃).values ρ = ys ++ [xs] ∧
      Quiet c (past ++ [levels]) (f.replay c (ys ++ [xs])) ∧
      Renders c ρ golden n (f.observe c ys.length (f.run c ys) xs) ∧
      (ρ ∈ difference.models ↔ (f.observe c ys.length (f.run c ys) xs).agrees c = false) := by
  have hOld : ρ ∈ r.unrolled.models :=
    ((Stages.mem_models hStages.tells.valid.pinned).mp hρ).1.1
  have hFollows := h.sound ρ hOld
  rw [Runs.extended, numbered_snoc, picks_append, picks_singleton] at hPicks
  obtain ⟨hStarts, hQuiet⟩ := hFollows.runs f.time hPicks.1
  have hFault : (⟨k.index, f.time⟩ : Fault) = f := by rw [← hf]
  rw [hFault] at hStarts hQuiet
  obtain ⟨hRenders, hUnseen, hDiffers⟩ := hStages.sound hρ hf hPicks.2 hStarts rfl
  have hLength : r.flips.length = (r.values ρ).length := h.length.trans hFollows.admits.length_eq
  rw [hLength] at hRenders hUnseen hDiffers
  refine ⟨r.values ρ, (inputLits c n).map (Lit.holds ρ), List.map_append, ?_, hRenders, hDiffers⟩
  rw [Fault.replay_snoc, quiet_snoc, h.unseen_iff hLevels hStages hGolden]
  exact ⟨hQuiet, hUnseen⟩

theorem Tracks.follows (ht : Transition.ofCircuit c = .ok t) (concrete : Option (Table Bool))
    {ρ : Assignment}
    (hρ : ρ ∈ (r.extended c flip n opened copy alarm golden e₃).unrolled.models) :
    Follows c (past ++ [levels]) k
      ((r.extended c flip n opened copy alarm golden e₃).advance c t n concrete) ρ := by
  obtain ⟨hMem, _, _, hExclusive⟩ := (Stages.mem_models hStages.tells.valid.pinned).mp hρ
  have hPinned := hStages.tells.valid.mem_pinned hMem
  have hFollows := h.sound ρ hMem.1
  refine ⟨?_, ?_, fun time hPicks => ?_⟩
  · change AtMostOne ρ (r.flips ++ [flip])
    rw [AtMostOne, List.pairwise_append]
    refine ⟨hFollows.atMostOnce, List.pairwise_singleton _ _, fun l hl l' hl' => ?_⟩
    rw [List.mem_singleton.mp hl', and_comm]
    exact hExclusive l hl
  · change AdmitsSteps _ ((r.inputs ++ [inputLits c n]).map _)
    rw [List.map_append, List.map_singleton, hStages.map_holds_inputLits hPinned]
    exact hFollows.admits.snoc (hStages.naming.admits ρ)
  · obtain ⟨ys, xs, hValues, hQuiet, hRenders, _⟩ :=
      h.shows hLevels hStages hGolden hρ (f := ⟨k.index, time⟩) rfl hPicks
    obtain ⟨_, _, _, _, _, _, _, hNext⟩ := Transition.ofCircuit_eq_ok ht
    rw [Runs.values_advance, hValues]
    refine ⟨⟨?_, ?_, Fault.get_run_zero c _ _⟩, hQuiet⟩
    · rw [Fault.run_snoc]
      exact hRenders.golden.advance (evaluation_holds hPinned) c
    · change (t.next.map n.lit).map (Lit.holds ρ) = _
      rw [Fault.run_snoc, Table.state_advance, hNext, List.map_map, List.map_map]
      exact List.map_congr_left fun l hl => hRenders.faulty _ (c.next_mem_uses hl)

/-- Every fault that shows no alarm is chosen by some model. -/
theorem Tracks.exists_picks {time : Nat} {inputs : List (List Bool)}
    (hAdmits : AdmitsSteps (past ++ [levels]) inputs)
    (hQuiet : Quiet c (past ++ [levels]) ((⟨k.index, time⟩ : Fault).replay c inputs)) :
    ∃ ρ ∈ (r.extended c flip n opened copy alarm golden e₃).unrolled.models,
      Picks ρ (numbered (r.extended c flip n opened copy alarm golden e₃).flips) time ∧
      (r.extended c flip n opened copy alarm golden e₃).values ρ = inputs := by
  obtain ⟨ys, xs, rfl, hPast, hStep⟩ := hAdmits.exists_snoc
  rw [Fault.replay_snoc, quiet_snoc, ← hPast.length_eq, ← h.length] at hQuiet
  obtain ⟨hQuiet, hUnseen⟩ := hQuiet
  obtain ⟨ρ, hρ, hPicks, rfl⟩ := h.complete time ys hPast hQuiet
  have hEarlier : r.flips.length = time → ∀ l ∈ r.flips, l.holds ρ = false := by
    intro hTime l hl
    obtain ⟨i, hi, rfl⟩ := List.getElem_of_mem hl
    rw [picks_numbered_iff.mp hPicks i _ (List.getElem?_eq_getElem hi), decide_eq_false]
    exact fun hEq => Nat.ne_of_lt hi (hEq.trans hTime.symm)
  rw [h.unseen_iff hLevels hStages hGolden] at hUnseen
  obtain ⟨ρ', hρ', hAgree, hInputs, hFlip⟩ := hStages.lift (by rwa [h.models_eq])
    (f := ⟨k.index, time⟩) rfl hEarlier ((h.sound ρ hρ).runs time hPicks).1 hStep hLevels hUnseen
  refine ⟨ρ', hρ', ?_, ?_⟩
  · rw [Runs.extended, numbered_snoc, picks_append, picks_singleton]
    exact ⟨hPicks.congr hAgree (var_lt_of_mem_numbered h.flipsBelow), hFlip⟩
  · change (r.inputs ++ [inputLits c n]).map _ = _
    rw [List.map_append, List.map_singleton, hInputs]
    congr 1
    exact List.map_congr_left fun ls hls => (hAgree.map_holds (h.inputsBelow ls hls)).symm

theorem Tracks.extend (ht : Transition.ofCircuit c = .ok t) (concrete : Option (Table Bool)) :
    Tracks c (past ++ [levels]) k
      ((r.extended c flip n opened copy alarm golden e₃).advance c t n concrete) := by
  have hOld : ∀ {v : Nat}, v < r.encoder.nextVar → v < e₃.nextVar :=
    fun hv => lt_of_lt_of_le hv hStages.le
  have hNamed : ∀ {v : Nat}, v < e₁.nextVar → v < e₃.nextVar :=
    fun hv => lt_of_lt_of_le hv hStages.le_naming
  obtain ⟨_, _, _, _, _, _, _, hNext⟩ := Transition.ofCircuit_eq_ok ht
  have hAlike := h.alike_step hLevels hStages hGolden
  have hPlain : e₃.cache = none := by
    refine hStages.tells.plain ?_
    rw [Encoder.cache_keepLow]
    exact hAlike.plain
  refine ⟨hStages.valid, rfl, ?_, ?_, ?_, ?_, ?_, ?_, ?_, ?_, ?_, ?_⟩
  · rw [Unrolling.solo_snoc]
    exact (hAlike.mono (d := e₃.take.2) hStages.le_performs hPlain).advance
  · change ∀ l ∈ r.flips ++ [flip], _
    simp only [List.forall_mem_append, List.forall_mem_singleton]
    exact ⟨fun l hl => hOld (h.flipsBelow l hl), hNamed hStages.naming.flipBelow⟩
  · change ∀ ls ∈ r.inputs ++ [inputLits c n], _
    simp only [List.forall_mem_append, List.forall_mem_singleton]
    exact ⟨fun ls hls l hl => hOld (h.inputsBelow ls hls l hl),
      fun l hl => hNamed (hStages.naming.inputsBelow l hl)⟩
  · exact (hStages.performs.bounded.mono hStages.le_performs).advance c
  · change ∀ l ∈ t.next.map n.lit, _
    rw [hNext, List.map_map, List.forall_mem_map]
    exact fun l hl => hNamed (hStages.naming.lit_below (c.mem_named_of_uses (c.next_mem_uses hl)))
  · change (t.next.map n.lit).length = _
    rw [hNext, List.length_map, List.length_map]
  · change ∀ ls ∈ r.inputs ++ [inputLits c n], ∀ l ∈ ls,
      _ ∨ l.var ∈ (r.opened ++ opened).map Lit.var
    rw [List.map_append]
    refine List.forall_mem_append.mpr ⟨fun ls hls l hl => ?_, ?_⟩
    · exact (h.known ls hls l hl).imp_right (List.mem_append_left _)
    · refine List.forall_mem_singleton.mpr fun l hl => ?_
      obtain ⟨s, hs, rfl⟩ := List.mem_map.mp hl
      exact (hStages.naming.known s hs).imp_right (List.mem_append_right _)
  · change (r.flips ++ [flip]).length = _
    rw [List.length_append, List.length_append, h.length]
    rfl
  · exact fun ρ hρ => h.follows hLevels hStages hGolden ht concrete hρ
  · exact fun time inputs hAdmits hQuiet => h.exists_picks hLevels hStages hGolden hAdmits hQuiet

end Step

variable (c) in
/-- A step that is encoded, with the formula that checks its outputs. -/
structure Grows (t : Transition) (past : List (List Level)) (levels : List Level) (k : Component)
    (r : Runs) (formula : Cnf) (n : Names) (r' : Runs) : Prop where
  tracks : ∀ concrete, Tracks c (past ++ [levels]) k (r'.advance c t n concrete)
  alarmed : r'.alarmed = r.alarmed
  wrong : ∀ ρ ∈ formula.models, ρ ∈ r'.unrolled.models ∧
    ∀ time, Picks ρ (numbered r'.flips) time →
      Errs c (past ++ [levels]) ⟨k.index, time⟩ (r'.values ρ)
  found : ∀ time inputs, AdmitsSteps (past ++ [levels]) inputs →
    Errs c (past ++ [levels]) ⟨k.index, time⟩ inputs → ∃ ρ, ρ ∈ formula.models
  copied : ∃ copy, n.copy t.relation = .ok copy ∧ ∃ ρ, ρ ∈ copy.models

theorem Tracks.step (h : Tracks c past k r) (ht : Transition.ofCircuit c = .ok t)
    (hLevels : levels.length = c.inputs.length) :
    ∃ formula n r', r.step c t k levels = .ok (formula, n, r') ∧
      Grows c t past levels k r formula n r' := by
  obtain ⟨flip, n, opened, e₁, copy, alarm, golden, e₂, difference, e₃, hStages, hGolden, hModel,
    hStep⟩ := h.stages ht hLevels
  obtain ⟨_, _, hRelation, _⟩ := Transition.ofCircuit_eq_ok ht
  have hFormula : ∀ {ρ}, ρ ∈ Cnf.models ((r.extended c flip n opened copy alarm golden
      e₃).unrolled ++ (Clause.fold difference).toList) ↔
      ρ ∈ (r.extended c flip n opened copy alarm golden e₃).unrolled.models ∧
        ρ ∈ difference.models := by
    intro ρ
    rw [Cnf.mem_models_append]
    refine and_congr_right fun hρ => Cnf.mem_models_fold ?_ difference
    exact hStages.tells.valid.mem_pinned ((Stages.mem_models hStages.tells.valid.pinned).mp hρ).1
  refine ⟨_, n, _, hStep, fun concrete => h.extend hLevels hStages hGolden ht concrete, rfl, ?_, ?_,
    copy, hRelation ▸ hStages.copied, hModel⟩
  · intro ρ hMem
    obtain ⟨hρ, hDifference⟩ := hFormula.mp hMem
    refine ⟨hρ, fun time hPicks => ?_⟩
    obtain ⟨ys, xs, hValues, hQuiet, _, hDiffers⟩ :=
      h.shows hLevels hStages hGolden hρ (f := ⟨k.index, time⟩) rfl hPicks
    rw [Fault.replay_snoc, quiet_snoc] at hQuiet
    rw [hValues]
    exact errs_snoc.mpr ⟨hQuiet.1, hQuiet.2, hDiffers.mp hDifference⟩
  · intro time inputs hAdmits hErrs
    obtain ⟨ρ, hρ, hPicks, rfl⟩ := h.exists_picks hLevels hStages hGolden hAdmits hErrs.1
    obtain ⟨ys, xs, hValues, _, _, hDiffers⟩ :=
      h.shows hLevels hStages hGolden hρ (f := ⟨k.index, time⟩) rfl hPicks
    rw [hValues] at hErrs
    exact ⟨ρ, hFormula.mpr ⟨hρ, hDiffers.mpr (errs_snoc.mp hErrs).2.2⟩⟩

end SoftError.Vulnerability.OneShot

import SoftError.Proofs.Vulnerability.DiagrammaticStep

/-!
# Traces found by decision diagrams

The latches that err in a step are all recorded there and excluded from then on. A latch that
is still considered has therefore shown no error before, so that its trace shows the first one.
-/

namespace SoftError.Vulnerability.Diagrammatic

variable {c : Circuit} {all ks : List Candidate} {inputs : List (List Bool)} {xs : List Bool}
  {r : Runs} {F F' : Findings} {s : Stimulus} {chooser : Diagram.Chooser}

/-- The diagram of the findings excludes the latches found. -/
structure Excludes (all : List Candidate) (F : Findings) : Prop where
  sublist : F.remaining.Sublist all
  ordered : F.allowed.Ordered 0
  eval : ∀ ρ, F.allowed.eval ρ = true ↔ ∀ k ∈ all, k ∉ F.remaining → ρ k.2 = false

/-- No fault of the candidates has shown an error. -/
def Clean (c : Circuit) (ks : List Candidate) (inputs : List (List Bool)) : Prop :=
  ∀ k ∈ ks, Spared c inputs k.1.index

/-- The faults that err in the current step. -/
def erring (c : Circuit) (all : List Candidate) (r : Runs) (F : Findings) : Diagram :=
  (((r.quiet.and (r.differs c)).and (location all)).and r.flips.single).and F.allowed

theorem eval_erring {ρ : Assignment} : (erring c all r F).eval ρ = true ↔
    (r.quiet.and (r.differs c)).eval ρ = true ∧
      ((location all).eval ρ = true ∧ r.flips.single.eval ρ = true) ∧
      F.allowed.eval ρ = true := by
  rw [erring, Diagram.eval_and, Diagram.eval_and, Diagram.eval_and]
  simp only [Bool.and_eq_true, and_assoc]

theorem ordered_erring (hF : Excludes all F) (h : Shows c all F.remaining inputs xs r) :
    (erring c all r F).Ordered 0 := by
  have hFlips : r.flips.single.Ordered 0 := h.flips ▸ (Choice.ordered_ofVars _).1
  exact (((h.quietOrdered.and h.ordered_differs).and (Choice.ordered_ofVars _).1).and hFlips).and
    hF.ordered

theorem silent_of_eval (hF : Excludes all F) (h : Shows c all F.remaining inputs xs r)
    {ρ : Assignment} (hEval : (erring c all r F).eval ρ = true) {k : Candidate} (hk : k ∈ all)
    {time : Nat} (hNames : Names all (inputs.length + 1) ρ ⟨k.1.index, time⟩) :
    k ∈ F.remaining ∧
      Silent c ((⟨k.1.index, time⟩ : Fault).replay c (inputs ++ [xs])) inputs.length := by
  obtain ⟨hErrs, _, hAllowed⟩ := eval_erring.mp hEval
  have hMem : k ∈ F.remaining := by
    by_contra hNot
    have hClear := (hF.eval ρ).mp hAllowed k hk hNot
    rw [hNames.set hk] at hClear
    cases hClear
  exact ⟨hMem, (h.eval_iff hNames (.inl (List.mem_map_of_mem hMem))).mp hErrs⟩

theorem mem_remaining_record {k : Candidate} :
    k ∈ (F.record c chooser all (location all) inputs r).remaining ↔ k ∈ F.remaining ∧
      ∀ w ∈ witnesses chooser all r.time all.length (erring c all r F), w.1.1 ≠ k.1 := by
  simp [Findings.record, erring]

variable (chooser) in
theorem remaining_record_sublist (F : Findings) (c : Circuit) (all : List Candidate)
    (inputs : List (List Bool)) (r : Runs) :
    (F.record c chooser all (location all) inputs r).remaining.Sublist F.remaining :=
  List.filter_sublist

theorem eval_foldl_exclude (ρ : Assignment) (ws : List (Candidate × Nat)) (d : Diagram) :
    (ws.foldl (fun d w => d.and (Diagram.ofVar w.1.2).not) d).eval ρ = true ↔
      d.eval ρ = true ∧ ∀ w ∈ ws, ρ w.1.2 = false := by
  induction ws generalizing d with
  | nil => simp
  | cons w ws ih => rw [List.foldl_cons, ih, eval_exclude, List.forall_mem_cons, and_assoc]

theorem ordered_foldl_exclude {ws : List (Candidate × Nat)} {d : Diagram} (h : d.Ordered 0) :
    (ws.foldl (fun d w => d.and (Diagram.ofVar w.1.2).not) d).Ordered 0 := by
  induction ws generalizing d with
  | nil => exact h
  | cons w ws ih => exact ih (h.and (Diagram.ordered_ofVar w.1.2).not)

section Record

variable (hAll : Numbered c all) (hF : Excludes all F)
  (h : Shows c all F.remaining inputs xs r)
include hAll hF h

/-- A fault that errs strikes one of the latches, and no later than the error. -/
theorem named_erring : Named all r.time (erring c all r F) := by
  intro ρ hEval
  obtain ⟨hErrs, hSingle, _⟩ := eval_erring.mp hEval
  rw [h.flips, hAll.single_iff] at hSingle
  rw [h.time]
  obtain ⟨⟨latch, time⟩, hMem | hNone, hNames⟩ := hSingle
  · obtain ⟨k, hk, rfl⟩ := List.mem_map.mp hMem
    have hSilent := (silent_of_eval hF h hEval hk hNames).2
    exact ⟨k, hk, time, Nat.lt_succ_of_le hSilent.strikes.1, hNames⟩
  · have hSilent := (h.eval_iff hNames (.inr hNone)).mp hErrs
    exact absurd hSilent.strikes.2 (Nat.not_lt_of_le hNone)

theorem silent_of_mem_witnesses {w : Candidate × Nat}
    (hw : w ∈ witnesses chooser all r.time all.length (erring c all r F)) : w.1 ∈ F.remaining ∧
      Silent c ((⟨w.1.1.index, w.2⟩ : Fault).replay c (inputs ++ [xs])) inputs.length := by
  obtain ⟨hk, ρ, hEval, hNames⟩ := hAll.mem_witnesses (ordered_erring hF h)
    (named_erring hAll hF h) w hw
  exact silent_of_eval hF h hEval hk (h.time ▸ hNames)

/-- A candidate with a fault that errs in the step is recorded. -/
theorem mem_witnesses_of_silent {k : Candidate} (hk : k ∈ F.remaining) {time : Nat}
    (hSilent : Silent c ((⟨k.1.index, time⟩ : Fault).replay c (inputs ++ [xs])) inputs.length) :
    ∃ w ∈ witnesses chooser all r.time all.length (erring c all r F), w.1 = k := by
  have hMem := hF.sublist.subset hk
  have hNames := hAll.names_setting (n := inputs.length + 1) hMem time
  have hOnly : ∀ k' ∈ all, Diagram.setting [k.2, all.length + time] k'.2 = true → k' = k := by
    intro k' hk' hSet
    rw [hNames.latch k' hk', decide_eq_true_eq] at hSet
    exact hAll.eq_of_index hk' hMem hSet
  have hErrs := (h.eval_iff hNames (.inl (List.mem_map_of_mem hk))).mpr hSilent
  have hAllowed := (hF.eval (Diagram.setting [k.2, all.length + time])).mpr fun k' hk' hNot =>
    Bool.eq_false_iff.mpr fun hSet => hNot (hOnly k' hk' hSet ▸ hk)
  have hSingle := hAll.single_iff.mpr ⟨_, .inl (List.mem_map_of_mem hMem), hNames⟩
  rw [← h.flips] at hSingle
  obtain ⟨w, hw, hSet⟩ := hAll.exists_witness (ordered_erring hF h) (named_erring hAll hF h)
    (fun _ _ => List.forall_mem_nil _) List.nodup_nil (List.nil_subset all)
    (by rw [List.length_nil, Nat.zero_add]) (eval_erring.mpr ⟨hErrs, hSingle, hAllowed⟩)
  have hRemaining := (silent_of_mem_witnesses hAll hF h hw).1
  exact ⟨w, hw, hOnly w.1 (hF.sublist.subset hRemaining) hSet⟩

theorem excludes_record (bools : List (List Bool)) :
    Excludes all (F.record c chooser all (location all) bools r) := by
  refine ⟨List.filter_sublist.trans hF.sublist, ordered_foldl_exclude hF.ordered, fun ρ => ?_⟩
  refine (eval_foldl_exclude ρ _ F.allowed).trans ?_
  rw [hF.eval]
  constructor
  · rintro ⟨hOld, hNew⟩ k hk hNot
    by_cases hMem : k ∈ F.remaining
    · rw [mem_remaining_record, and_iff_right hMem] at hNot
      push Not at hNot
      obtain ⟨w, hw, hEq⟩ := hNot
      have hSame := hAll.eq_of_index (hF.sublist.subset (silent_of_mem_witnesses hAll hF h hw).1) hk
        (congrArg Component.index hEq)
      exact hSame ▸ hNew w hw
    · exact hOld k hk hMem
  · intro hNone
    refine ⟨fun k hk hNot => hNone k hk fun hMem => hNot (mem_remaining_record.mp hMem).1,
      fun w hw => ?_⟩
    refine hNone w.1 (hF.sublist.subset (silent_of_mem_witnesses hAll hF h hw).1) fun hMem => ?_
    exact (mem_remaining_record.mp hMem).2 w hw rfl

/-- The latches that are left have shown no error in the step either. -/
theorem clean_record (hClean : Clean c F.remaining inputs) (bools : List (List Bool)) :
    Clean c (F.record c chooser all (location all) bools r).remaining (inputs ++ [xs]) := by
  intro k hk time i hSilent
  obtain ⟨hMem, hNone⟩ := mem_remaining_record.mp hk
  have hi := hSilent.lt_length
  rw [List.length_append, List.length_singleton] at hi
  by_cases hLast : i = inputs.length
  · obtain ⟨w, hw, rfl⟩ := mem_witnesses_of_silent hAll hF h hMem (hLast ▸ hSilent)
    exact hNone w hw rfl
  · have hLt : i < inputs.length := by omega
    refine hClean k hMem time i ?_
    have hTake : (inputs ++ [xs]).take inputs.length = inputs := List.take_left
    rw [← hTake, Fault.replay_take]
    exact (silent_take_iff hLt).mpr hSilent

theorem genuine_of_mem_witnesses (hClean : Clean c F.remaining inputs)
    (hInputs : s.bools.take (inputs.length + 1) = inputs ++ [xs]) {w : Candidate × Nat}
    (hw : w ∈ witnesses chooser all r.time all.length (erring c all r F)) :
    Genuine c s w.1.1.index ⟨w.1.1.signal, w.2, r.time - 1, s.bools.take r.time⟩ := by
  obtain ⟨hk, hSilent⟩ := silent_of_mem_witnesses hAll hF h hw
  have hPrefix : s.bools.take inputs.length = inputs := by
    have hTake := congrArg (List.take inputs.length) hInputs
    rwa [List.take_take, Nat.min_eq_left (Nat.le_succ _), List.take_left] at hTake
  rw [← hInputs, Fault.replay_take, silent_take_iff (Nat.lt_succ_self _)] at hSilent
  have hFirst := hSilent.first fun i hi hEarlier => by
    refine hClean w.1 hk w.2 i ?_
    rw [← hPrefix, Fault.replay_take]
    exact (silent_take_iff hi).mpr hEarlier
  rw [h.time, Nat.add_sub_cancel]
  exact hFirst.genuine (admitsSteps_readings s.steps) hSilent.strikes.1 _

theorem eq_of_signal_witnesses {w : Candidate × Nat}
    (hw : w ∈ witnesses chooser all r.time all.length (erring c all r F)) {k : Candidate}
    (hk : k ∈ F.remaining) (hEq : w.1.1.signal = k.1.signal) : w.1 = k := by
  have hMem := hF.sublist.subset (silent_of_mem_witnesses hAll hF h hw).1
  exact hAll.eq_of_index hMem (hF.sublist.subset hk)
    ((hAll.index_eq_iff hMem (hF.sublist.subset hk)).mpr hEq)

theorem splits_record (hClean : Clean c F.remaining inputs)
    (hInputs : s.bools.take (inputs.length + 1) = inputs ++ [xs]) :
    ∃ new, (F.record c chooser all (location all) s.bools r).traces = F.traces ++ new ∧
      Splits (fun k t => Genuine c s k.index t) (fun _ => True) (F.remaining.map Prod.fst) new
        ((F.record c chooser all (location all) s.bools r).remaining.map Prod.fst) := by
  refine ⟨_, rfl, ⟨⟨fun t ht => ?_, ?_, fun _ _ _ => trivial⟩, fun k => ?_,
    List.filter_sublist.map _⟩⟩
  · obtain ⟨w, hw, rfl⟩ := List.mem_map.mp ht
    have hk := (silent_of_mem_witnesses hAll hF h hw).1
    exact ⟨w.1.1, List.mem_map_of_mem hk, rfl, genuine_of_mem_witnesses hAll hF h hClean hInputs hw⟩
  · have hNodup : ((witnesses chooser all r.time all.length (erring c all r F)).map Prod.fst).Nodup :=
      hAll.nodup_witnesses (ordered_erring hF h) (named_erring hAll hF h)
    have hSignals := hNodup.map_on (f := fun k => k.1.signal) fun k hk k' hk' hEq => by
      obtain ⟨w, hw, rfl⟩ := List.mem_map.mp hk
      obtain ⟨w', hw', rfl⟩ := List.mem_map.mp hk'
      exact eq_of_signal_witnesses hAll hF h hw (silent_of_mem_witnesses hAll hF h hw').1 hEq
    rw [List.map_map] at hSignals ⊢
    exact hSignals
  · constructor
    · intro hMem
      obtain ⟨k, hk, rfl⟩ := List.mem_map.mp hMem
      obtain ⟨hOld, hNone⟩ := mem_remaining_record.mp hk
      refine ⟨List.mem_map_of_mem hOld, fun t ht hEq => ?_⟩
      obtain ⟨w, hw, rfl⟩ := List.mem_map.mp ht
      exact hNone w hw (congrArg Prod.fst (eq_of_signal_witnesses hAll hF h hw hOld hEq))
    · rintro ⟨hMem, hNone⟩
      obtain ⟨k, hk, rfl⟩ := List.mem_map.mp hMem
      refine List.mem_map_of_mem (mem_remaining_record.mpr ⟨hk, fun w hw hEq => ?_⟩)
      exact hNone _ (List.mem_map_of_mem hw) (congrArg Component.signal hEq)

end Record

/-- The induction is on the steps that are left. -/
theorem splits_onSteps (hAll : Numbered c all) {past rest : List (List Level)}
    (hSteps : s.steps = past ++ rest) (hWidth : s.width = c.inputs.length)
    (hF : Excludes all F) (hClean : Clean c F.remaining (readings past))
    (hTracks : Tracks c all F.remaining (readings past) r)
    (h : onSteps c chooser all (location all) s.bools rest r F = .ok F') :
    Excludes all F' ∧ ∃ new, F'.traces = F.traces ++ new ∧
      Splits (fun k t => Genuine c s k.index t) (fun k => Spared c s.bools k.index)
        (F.remaining.map Prod.fst) new (F'.remaining.map Prod.fst) := by
  induction rest generalizing past r F with
  | nil =>
    cases h
    refine ⟨hF, [], (List.append_nil _).symm, .refl fun k hMem => ?_⟩
    obtain ⟨k, hk, rfl⟩ := List.mem_map.mp hMem
    rw [Stimulus.bools, hSteps, List.append_nil]
    exact hClean k hk
  | cons levels rest ih =>
    rw [onSteps] at h
    split at h
    · rename_i hEmpty
      cases h
      refine ⟨hF, [], (List.append_nil _).symm, .refl ?_⟩
      rw [List.isEmpty_iff.mp hEmpty]
      exact List.forall_mem_nil _
    obtain ⟨r', hStep, hRest⟩ := exists_of_bind_eq_ok h
    have hLength : levels.length = c.inputs.length :=
      (s.width_eq levels (hSteps ▸ by simp)).trans hWidth
    have hShows := hTracks.step hAll hF.sublist hLength hStep
    have hSnoc : readings (past ++ [levels]) = readings past ++ [levels.map Level.toBool] :=
      List.map_append
    have hInputs : s.bools.take ((readings past).length + 1) =
        readings past ++ [levels.map Level.toBool] := by
      rw [← hSnoc, length_readings, Stimulus.bools, ← List.map_take, hSteps, List.take_append,
        List.take_of_length_le (Nat.le_succ _)]
      simp [readings]
    obtain ⟨first, hFirst, hSplits⟩ := splits_record hAll hF hShows hClean hInputs
    have hNext := hShows.advance.sublist (remaining_record_sublist chooser F c all s.bools r')
    rw [← hSnoc] at hNext
    obtain ⟨hF', more, hMore, hLater⟩ := ih (by rw [hSteps]; simp)
      (excludes_record hAll hF hShows s.bools)
      (hSnoc ▸ clean_record hAll hF hShows hClean s.bools) hNext hRest
    exact ⟨hF', first ++ more, by rw [hMore, hFirst, List.append_assoc],
      (hSplits.trans hLater).imp (fun _ _ => id) fun _ => And.right⟩

theorem evidence_onStimuli (hAll : Numbered c all) {stimuli : List Stimulus}
    (hWidth : ∀ s ∈ stimuli, s.width = c.inputs.length) (hF : Excludes all F)
    (h : onStimuli c chooser all (location all) stimuli F = .ok F') :
    ∃ new, F'.traces = F.traces ++ new ∧
      Evidence c (fun s k => Spared c s.bools k.index) stimuli (F.remaining.map Prod.fst) new := by
  induction stimuli generalizing F with
  | nil =>
    cases h
    exact ⟨[], (List.append_nil _).symm, .nil fun _ _ => List.forall_mem_nil _⟩
  | cons s stimuli ih =>
    obtain ⟨hFirst, hWidth⟩ := List.forall_mem_cons.mp hWidth
    obtain ⟨G, hSteps, hRest⟩ := exists_of_bind_eq_ok h
    have hClean : Clean c F.remaining (readings []) := by
      intro k _ time i hSilent
      exact absurd hSilent.lt_length (Nat.not_lt_zero i)
    obtain ⟨hG, new, hNew, hSplits⟩ := splits_onSteps hAll (show s.steps = [] ++ s.steps from rfl)
      hFirst hF hClean (tracks_initial c all F.remaining) hSteps
    obtain ⟨more, hMore, hEvidence⟩ := ih hWidth hG hRest
    exact ⟨new ++ more, by rw [hMore, hNew, List.append_assoc], hSplits.evidence hEvidence⟩

theorem map_fst_candidates (checked : List Component) :
    (candidates checked).map Prod.fst = checked := by
  apply List.ext_getElem <;> simp [candidates]

theorem numbered_candidates {checked : List Component}
    (hLatch : ∀ k ∈ checked, ∃ l, c.latches[k.index]? = some l ∧ k.signal = l.signal)
    (hNodup : (checked.map Component.index).Nodup) : Numbered c (candidates checked) := by
  refine ⟨⟨fun k hk => hLatch k.1 ?_, ?_⟩, ?_⟩
  · rw [← map_fst_candidates checked]
    exact List.mem_map_of_mem hk
  · rw [← map_fst_candidates checked, List.map_map] at hNodup
    exact hNodup
  · apply List.ext_getElem <;> simp [candidates]

theorem analyze_eq_ok {o : Options} {stimuli : List Stimulus} {report : Report}
    (h : analyze c o stimuli chooser = .ok report) :
    ∃ checked ts, checkedLatches c o.reserved = .ok checked ∧
      Evidence c (fun s k => Spared c s.bools k.index) stimuli checked ts ∧
      report = .ofTraces o ts := by
  obtain ⟨_, _, h⟩ := exists_of_bind_eq_ok h
  obtain ⟨_, hStimuli, h⟩ := exists_of_bind_eq_ok h
  obtain ⟨checked, hChecked, h⟩ := exists_of_bind_eq_ok h
  dsimp only at h
  split at h
  · cases h
  split at h
  · cases h
  obtain ⟨F, hF, h⟩ := exists_of_bind_eq_ok h
  cases h
  have hLatch := fun k hk => ((mem_checkedLatches hChecked (k := k)).mp hk).2
  have hExcludes : Excludes (candidates checked) ⟨candidates checked, .leaf true, []⟩ :=
    ⟨List.Sublist.refl _, trivial, fun ρ => iff_of_true rfl fun k hk hNot => absurd hk hNot⟩
  obtain ⟨new, hNew, hEvidence⟩ := evidence_onStimuli
    (numbered_candidates hLatch (checkedLatches_nodup hChecked))
    (fun s hs => (checkStimuli_eq_ok hStimuli s hs).1) hExcludes (eq_ok_of_mapError hF)
  rw [map_fst_candidates] at hEvidence
  rw [hNew]
  exact ⟨checked, _, hChecked, hEvidence, rfl⟩

/-- The report has one genuine trace of each latch found. -/
theorem documented_analyze {o : Options} {stimuli : List Stimulus} {report : Report}
    (h : analyze c o stimuli chooser = .ok report) : Documented c o stimuli report := by
  obtain ⟨checked, ts, hChecked, hEvidence, rfl⟩ := analyze_eq_ok h
  exact hEvidence.documented hChecked

end SoftError.Vulnerability.Diagrammatic

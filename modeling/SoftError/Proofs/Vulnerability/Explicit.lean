import SoftError.Proofs.Fault.Recovery
import SoftError.Proofs.Stimulus.Expansion
import SoftError.Proofs.Vulnerability.Traces
import SoftError.Vulnerability.Explicit

/-!
# Exactness of explicit faults

Following a faulty run along the recorded golden one amounts to replaying the fault, as far as
the faulty run is followed. A flip that is tried first leaves the runs the same before it. The
run is left early where nothing can be missed: an alarm ends the search for an error, and equal
states have equal futures.
-/

namespace SoftError.Vulnerability.Explicit

variable {c : Circuit}

/-- The induction is on the inputs that are left. The fault has struck in the first of these
steps at the latest. -/
theorem firstSilent_of_follow (f : Fault) {t n : Nat} (hTime : f.time ≤ t)
    {golden faulty : Table Bool} {inputs : List (List Bool)}
    (h : follow c (f.strike c t faulty) (goldenRun c golden inputs) = .silent n) :
    FirstSilent c (f.replayFrom c t golden faulty inputs) n := by
  induction inputs generalizing t n golden faulty with
  | nil => cases h
  | cons xs inputs ih =>
    rw [goldenRun, follow] at h
    rw [Fault.replayFrom]
    split at h
    · cases h
    rename_i hAlarm
    rw [Bool.not_eq_true] at hAlarm
    split at h
    · rename_i hWrong
      cases h
      exact firstSilent_zero.mpr ⟨hAlarm, decide_eq_false (Ne.symm hWrong)⟩
    rename_i hSame
    dsimp only at h
    split at h
    · cases h
    have hLater : f.strike c (t + 1) (((f.strike c t faulty).step c xs).advance c) = _ :=
      if_neg (Nat.ne_of_gt (Nat.lt_succ_of_le hTime))
    cases hFollow : follow c (((f.strike c t faulty).step c xs).advance c)
        (goldenRun c ((golden.step c xs).advance c) inputs) with
    | silent m =>
      have hRest := ih (hTime.trans (Nat.le_succ t)) (hLater.symm ▸ hFollow)
      have hEq : Outcome.later (.silent m) = .silent n := hFollow ▸ h
      cases hEq
      exact firstSilent_succ.mpr ⟨hAlarm, decide_eq_true (not_not.mp hSame).symm, hRest⟩
    | detected =>
      have hEq : Outcome.later .detected = .silent n := hFollow ▸ h
      cases hEq
    | masked =>
      have hEq : Outcome.later .masked = .silent n := hFollow ▸ h
      cases hEq

/-- The induction is on the inputs that are left. Both runs have the same values apart from the
latches, so that equal states end the error. -/
theorem follow_of_firstSilent (f : Fault) {t n : Nat} (hTime : f.time ≤ t)
    {golden faulty : Table Bool} {inputs : List (List Bool)}
    (hRest : Table.SameRest c golden faulty)
    (h : FirstSilent c (f.replayFrom c t golden faulty inputs) n) :
    follow c (f.strike c t faulty) (goldenRun c golden inputs) = .silent n := by
  induction inputs generalizing t n golden faulty with
  | nil =>
    obtain ⟨o, ho, _⟩ := h.wrong
    cases ho
  | cons xs inputs ih =>
    have hStep := (hRest.strike f t).step xs
    rw [Fault.replayFrom] at h
    rw [goldenRun, follow]
    cases n with
    | zero =>
      obtain ⟨hAlarm, hWrong⟩ := firstSilent_zero.mp h
      rw [if_neg (Bool.not_eq_true _ ▸ hAlarm), if_pos (Ne.symm (of_decide_eq_false hWrong))]
    | succ n =>
      obtain ⟨hAlarm, hAgrees, hLater⟩ := firstSilent_succ.mp h
      have hStates : ((f.strike c t faulty).step c xs).nextState c ≠
          (golden.step c xs).nextState c := by
        intro hEq
        obtain ⟨o, ho, hWrong⟩ := hLater.wrong
        have hSame := Fault.eq_of_mem_replayFrom (Nat.lt_succ_of_le hTime)
          (hStep.sameStart hEq.symm) (List.mem_of_getElem? ho)
        exact of_decide_eq_false hWrong (Table.observed_congr hSame)
      rw [if_neg (Bool.not_eq_true _ ▸ hAlarm),
        if_neg (not_not.mpr (of_decide_eq_true hAgrees).symm)]
      have hNoStrike : f.strike c (t + 1) (((f.strike c t faulty).step c xs).advance c) = _ :=
        if_neg (Nat.ne_of_gt (Nat.lt_succ_of_le hTime))
      have hFollow := ih (hTime.trans (Nat.le_succ t)) hStep.advance hLater
      rw [hNoStrike] at hFollow
      dsimp only
      rw [if_neg hStates]
      exact congrArg Outcome.later hFollow

theorem firstSilent_of_firstFlip {latch t time after : Nat} {golden : Table Bool}
    {inputs : List (List Bool)}
    (h : firstFlip c latch t (goldenRun c golden inputs) = some (time, after)) :
    t ≤ time ∧ FirstSilent c ((⟨latch, time⟩ : Fault).replayFrom c t golden golden inputs)
      (time + after - t) := by
  induction inputs generalizing t golden with
  | nil => cases h
  | cons xs inputs ih =>
    rw [goldenRun, firstFlip] at h
    split at h
    · rename_i after' hFollow
      obtain ⟨rfl, rfl⟩ : t = time ∧ after' = after := Prod.mk.inj (Option.some.inj h)
      refine ⟨Nat.le_refl t, ?_⟩
      rw [Nat.add_sub_cancel_left]
      refine firstSilent_of_follow ⟨latch, t⟩ (Nat.le_refl t) ?_
      rw [Fault.strike, if_pos rfl]
      exact hFollow
    · split at h
      · cases h
      rename_i hAlarm
      rw [Bool.not_eq_true] at hAlarm
      obtain ⟨hLe, hRest⟩ := ih h
      refine ⟨Nat.le_of_succ_le hLe, ?_⟩
      have hStrike : (⟨latch, time⟩ : Fault).strike c t golden = golden :=
        if_neg (Nat.ne_of_lt hLe)
      have hSub : time + after - t = time + after - (t + 1) + 1 := by omega
      rw [Fault.replayFrom, hStrike, hSub]
      exact firstSilent_succ.mpr ⟨hAlarm, decide_eq_true rfl, hRest⟩

/-- A flip after a golden alarm comes too late: before it, both runs raise the same alarms. -/
theorem firstFlip_ne_none {latch t time n : Nat} {golden : Table Bool}
    {inputs : List (List Bool)} (hTime : t ≤ time)
    (h : FirstSilent c ((⟨latch, time⟩ : Fault).replayFrom c t golden golden inputs) n) :
    firstFlip c latch t (goldenRun c golden inputs) ≠ none := by
  induction inputs generalizing t n golden with
  | nil =>
    obtain ⟨o, ho, _⟩ := h.wrong
    cases ho
  | cons xs inputs ih =>
    rw [goldenRun, firstFlip]
    rcases Nat.eq_or_lt_of_le hTime with rfl | hLater
    · have hFollow := follow_of_firstSilent ⟨latch, t⟩ (Nat.le_refl t) (fun _ _ _ => rfl) h
      rw [Fault.strike, if_pos rfl, goldenRun] at hFollow
      rw [hFollow]
      simp
    · have hStrike : (⟨latch, time⟩ : Fault).strike c t golden = golden :=
        if_neg (Nat.ne_of_lt hLater)
      rw [Fault.replayFrom, hStrike] at h
      cases n with
      | zero => exact absurd rfl (of_decide_eq_false (firstSilent_zero.mp h).2)
      | succ n =>
        obtain ⟨hAlarm, _, hRest⟩ := firstSilent_succ.mp h
        split
        · simp
        · rw [if_neg (Bool.not_eq_true _ ▸ hAlarm)]
          exact ih hLater hRest

theorem spared_of_trace? {inputs : List (List Bool)} {k : Component}
    (h : trace? c inputs (goldenRun c (Table.initial c) inputs) k = none) :
    Spared c inputs k.index := by
  intro time n hSilent
  obtain ⟨m, _, hFirst⟩ := hSilent.exists_first
  exact firstFlip_ne_none (Nat.zero_le time) hFirst (Option.map_eq_none_iff.mp h)

theorem genuine_of_trace? {inputs : List (List Bool)} {k : Component} {s : Stimulus}
    {t : ErrorTrace} (hAdmits : s.Admits inputs)
    (h : trace? c inputs (goldenRun c (Table.initial c) inputs) k = some t) :
    t.latch = k.signal ∧ Genuine c s k.index t := by
  obtain ⟨⟨time, after⟩, hFlip, rfl⟩ := Option.map_eq_some_iff.mp h
  obtain ⟨_, hSilent⟩ := firstSilent_of_firstFlip hFlip
  rw [Nat.sub_zero] at hSilent
  exact ⟨rfl, hSilent.genuine hAdmits (Nat.le_add_right time after) k.signal⟩

theorem onInputs_eq (inputs : List (List Bool)) (ks : List Component) :
    onInputs c inputs ks =
      (ks.filterMap (trace? c inputs (goldenRun c (Table.initial c) inputs)),
        ks.filter fun k => (trace? c inputs (goldenRun c (Table.initial c) inputs) k).isNone) := by
  rw [onInputs]
  induction ks with
  | nil => rfl
  | cons k ks ih =>
    rw [List.foldr_cons, ih]
    cases hTrace : trace? c inputs (goldenRun c (Table.initial c) inputs) k with
    | none => simp [hTrace]
    | some t => simp [hTrace]

theorem splits_onInputs {inputs : List (List Bool)} {ks : List Component} {s : Stimulus}
    (hAdmits : s.Admits inputs) (hNodup : (ks.map Component.signal).Nodup) :
    Splits (fun k t => Genuine c s k.index t) (fun k => Spared c inputs k.index) ks
      (onInputs c inputs ks).1 (onInputs c inputs ks).2 := by
  rw [onInputs_eq]
  exact .filterMap hNodup (fun k t => genuine_of_trace? hAdmits) fun k => spared_of_trace?

theorem splits_onFillings {s : Stimulus} {ns : List Nat} {found found' : List ErrorTrace}
    {ks ks' : List Component} (hNodup : (ks.map Component.signal).Nodup)
    (h : onFillings c s ns found ks = (found', ks')) :
    ∃ ts, found' = found ++ ts ∧ Splits (fun k t => Genuine c s k.index t)
      (fun k => ∀ n ∈ ns, Spared c (s.filling n) k.index) ks ts ks' := by
  induction ns generalizing found ks with
  | nil =>
    cases h
    exact ⟨[], (List.append_nil found').symm, .refl fun _ _ => List.forall_mem_nil _⟩
  | cons n ns ih =>
    rw [onFillings] at h
    split at h
    · rename_i hEmpty
      cases h
      rw [List.isEmpty_iff.mp hEmpty]
      exact ⟨[], (List.append_nil found').symm, .refl (List.forall_mem_nil _)⟩
    · have hFirst := splits_onInputs (s.admits_filling n) hNodup (c := c)
      obtain ⟨ts, rfl, hRest⟩ := ih ((hFirst.sublist.map Component.signal).nodup hNodup) h
      refine ⟨_, List.append_assoc _ _ _, (hFirst.trans hRest).imp (fun _ _ => id) fun k => ?_⟩
      exact (List.forall_mem_cons (p := fun n => Spared c (s.filling n) k.index)).mpr

/-- No flip of the latch leads to a silent error on any inputs that the stimulus admits. -/
def SparedBy (c : Circuit) (s : Stimulus) (k : Component) : Prop :=
  ∀ inputs, s.Admits inputs → Spared c inputs k.index

theorem evidence_onStimuli {index : Nat} {stimuli : List Stimulus} {found ts : List ErrorTrace}
    {ks : List Component} (hNodup : (ks.map Component.signal).Nodup)
    (h : onStimuli c index stimuli found ks = .ok ts) :
    ∃ new, ts = found ++ new ∧ Evidence c (SparedBy c) stimuli ks new := by
  induction stimuli generalizing index found ks with
  | nil =>
    cases h
    exact ⟨[], (List.append_nil ts).symm, .nil fun _ _ => List.forall_mem_nil _⟩
  | cons s stimuli ih =>
    obtain ⟨found', ks', hFillings⟩ : ∃ found' ks',
        onFillings c s (List.range (1 <<< s.freeCount)) found ks = (found', ks') := ⟨_, _, rfl⟩
    obtain ⟨new, rfl, hSplits⟩ := splits_onFillings hNodup hFillings
    have hHere : Splits (fun k t => Genuine c s k.index t) (SparedBy c s) ks new ks' := by
      refine hSplits.imp (fun _ _ => id) fun k hSpared inputs hAdmits => ?_
      obtain ⟨n, hn, rfl⟩ := Stimulus.exists_filling hAdmits
      exact hSpared n hn
    rw [onStimuli, hFillings] at h
    split at h
    · cases h
    cases ks' with
    | nil =>
      cases h
      refine ⟨new, rfl, ?_⟩
      have hNone : Evidence c (SparedBy c) stimuli [] [] := .nil (List.forall_mem_nil _)
      simpa using hHere.evidence hNone
    | cons k ks' =>
      obtain ⟨more, rfl, hMore⟩ := ih ((hHere.sublist.map Component.signal).nodup hNodup) h
      exact ⟨new ++ more, List.append_assoc _ _ _, hHere.evidence hMore⟩

theorem analyze_eq_ok {o : Options} {stimuli : List Stimulus} {report : Report}
    (h : analyze c o stimuli = .ok report) : checkStimuli c true stimuli = .ok () ∧
      ∃ checked ts, checkedLatches c o.reserved = .ok checked ∧
        Evidence c (SparedBy c) stimuli checked ts ∧ report = .ofTraces o ts := by
  obtain ⟨_, _, h⟩ := exists_of_bind_eq_ok h
  obtain ⟨_, hStimuli, h⟩ := exists_of_bind_eq_ok h
  obtain ⟨checked, hChecked, h⟩ := exists_of_bind_eq_ok h
  obtain ⟨ts, hTraces, h⟩ := exists_of_bind_eq_ok h
  cases h
  obtain ⟨new, rfl, hEvidence⟩ :=
    evidence_onStimuli (checkedLatches_signals_nodup hChecked) hTraces
  exact ⟨hStimuli, checked, _, hChecked, hEvidence, rfl⟩

/-- The report has one genuine trace of each latch found. -/
theorem documented_analyze {o : Options} {stimuli : List Stimulus} {report : Report}
    (h : analyze c o stimuli = .ok report) : Documented c o stimuli report := by
  obtain ⟨_, checked, ts, hChecked, hEvidence, rfl⟩ := analyze_eq_ok h
  exact hEvidence.documented hChecked

/-- The latches reported are the checked ones with a flip that leads to a wrong output in some
run, without an alarm up to there. -/
theorem mem_vulnerable_iff_exists_silent {o : Options} {stimuli : List Stimulus} {report : Report}
    (h : analyze c o stimuli = .ok report) :
    (∀ x ∈ report.vulnerable, ∃ l ∈ c.latches, x = l.signal) ∧
    ∀ i l, c.latches[i]? = some l → (l.signal ∈ report.vulnerable ↔
      i < c.latches.length - o.reserved ∧ ∃ s ∈ stimuli, ∃ inputs, s.Admits inputs ∧
        ∃ time t, time ≤ t ∧ t < s.length ∧
          Silent c ((⟨i, time⟩ : Fault).replay c inputs) t) := by
  obtain ⟨_, checked, ts, hChecked, hEvidence, rfl⟩ := analyze_eq_ok h
  refine hEvidence.mem_vulnerable_iff hChecked (fun k t hShows => ?_) fun k hSpared => ?_
  · obtain ⟨s, hs, hGenuine⟩ := hShows
    obtain ⟨inputs, hAdmits, hLt, hSilent⟩ := hGenuine.exists_silent
    exact ⟨s, hs, inputs, hAdmits, t.flip, t.error, hGenuine.flip_le, hLt, hSilent⟩
  · rintro ⟨s, hs, inputs, hAdmits, time, t, _, _, hSilent⟩
    exact hSpared s hs inputs hAdmits time t hSilent

theorem gatedLatch_silent :
    analyze gatedLatch {} [lateInput] =
        .ok ⟨[⟨4⟩], [⟨⟨4⟩, 0, 1, [[false], [true]]⟩]⟩ ∧
      ∃ s ∈ [lateInput], ∃ inputs, s.Admits inputs ∧ ∃ time t, time ≤ t ∧ t < s.length ∧
        Silent gatedLatch ((⟨0, time⟩ : Fault).replay gatedLatch inputs) t := by
  have hOk : analyze gatedLatch {} [lateInput] =
      .ok ⟨[⟨4⟩], [⟨⟨4⟩, 0, 1, [[false], [true]]⟩]⟩ := by rfl
  have hIff := (mem_vulnerable_iff_exists_silent hOk).2 0 ⟨⟨4⟩, ⟨4⟩, none⟩ rfl
  exact ⟨hOk, (hIff.mp (List.mem_singleton.mpr rfl)).2⟩

end SoftError.Vulnerability.Explicit

import SoftError.Proofs.Fault.Restart
import SoftError.Proofs.Protection.Exact
import SoftError.Proofs.Vulnerability.Results

/-!
# Protected latches in whole runs

The analysis of protection follows a flip for some steps from an arbitrary state. If such a
window fits into a run without golden alarms, what happens in it decides about the whole run:
either an output is wrong within it, or the states have to differ at its end for any output to
be wrong later. So a protected latch is not vulnerable where the windows fit, as they do if one
step is considered. More steps may reach beyond the end of the run, and if every way to go on
raises a golden alarm then the analysis takes no notice of the error.
-/

namespace SoftError.Protection

open Deciding
open Vulnerability (Silent)

variable {c : Circuit} {o : Options} {reserved k latch time t : Nat} {inputs : List (List Bool)}
  {stimuli : List Stimulus} {found : List Signal} {report : Vulnerability.Report}

theorem Unnoticed.congr {os os' : List Observation} (h : Unnoticed c reserved os)
    (hSame : List.Forall₂ Observation.Same os os') : Unnoticed c reserved os' := by
  induction hSame with
  | nil => exact absurd h not_unnoticed_nil
  | cons hHead hTail ih =>
    rw [unnoticed_cons] at h ⊢
    rw [← Table.alarm_congr hHead.faulty, ← hHead.agrees_eq, ← hHead.converges_eq]
    refine ⟨h.1, h.2.imp (fun hDiffers => hDiffers.imp_right fun ⟨hNil, hStates⟩ => ?_) ih⟩
    subst hNil
    cases hTail
    exact ⟨rfl, hStates⟩

theorem golden_alarm_of_same {os os' : List Observation}
    (hSame : List.Forall₂ Observation.Same os os') (h : ∀ o ∈ os, o.golden.alarm c = false) :
    ∀ o ∈ os', o.golden.alarm c = false := by
  induction hSame with
  | nil => exact List.forall_mem_nil _
  | cons hHead _ ih =>
    obtain ⟨hFirst, hRest⟩ := List.forall_mem_cons.mp h
    exact List.forall_mem_cons.mpr ⟨Table.alarm_congr hHead.golden ▸ hFirst, ih hRest⟩

theorem eq_nextState_of_converges {o : Observation} (h : o.converges c 0 = true) :
    o.golden.nextState c = o.faulty.nextState c := by
  have hTake := of_decide_eq_true h
  rwa [Nat.sub_zero, List.take_of_length_le (Table.length_nextState c _).le,
    List.take_of_length_le (Table.length_nextState c _).le] at hTake

/-- An error within the window or after it goes unnoticed there. -/
theorem unnoticed_window (hk : 1 ≤ k) (hWindow : time + k ≤ inputs.length)
    (hSilent : Silent c ((⟨latch, time⟩ : Fault).replay c inputs) t) :
    Unnoticed c 0 ((((⟨latch, time⟩ : Fault).replay c inputs).drop time).take k) := by
  obtain ⟨os, hos⟩ : ∃ os, os = (⟨latch, time⟩ : Fault).replay c inputs := ⟨_, rfl⟩
  have hTime : time ≤ t := hSilent.strikes.1
  have hLength : os.length = inputs.length := hos ▸ Fault.length_replay c _ inputs
  have hGet : ∀ i < k, ((os.drop time).take k)[i]? = os[time + i]? := fun i hi => by
    rw [List.getElem?_take_of_lt hi, List.getElem?_drop]
  have hLow : ∀ i < k, time + i ≤ t → ∀ o' ∈ ((os.drop time).take k).take (i + 1),
      o'.faulty.alarm c = false := by
    intro i hi hLe o' ho'
    obtain ⟨j, hj⟩ := List.mem_iff_getElem?.mp ho'
    rw [List.getElem?_take] at hj
    split at hj
    · rename_i hLt
      rw [hGet j (by omega), hos] at hj
      exact hSilent.quiet (time + j) (by omega) o' hj
    · cases hj
  rw [← hos]
  by_cases hInside : t < time + k
  -- the window shows the error itself
  · obtain ⟨o, ho, hWrong⟩ := hSilent.wrong
    have hi : time + (t - time) = t := Nat.add_sub_cancel' hTime
    refine ⟨t - time, o, ?_, hLow _ (by omega) hi.le, .inl hWrong⟩
    rw [hGet _ (by omega), hi, hos, ho]
  · obtain ⟨o, ho⟩ : ∃ o, os[time + (k - 1)]? = some o :=
      ⟨_, List.getElem?_eq_getElem (by omega)⟩
    refine ⟨k - 1, o, (hGet _ (by omega)).trans ho, hLow _ (by omega) (by omega), .inr ⟨?_, ?_⟩⟩
    · rw [List.length_take, List.length_drop]
      omega
    -- the error comes later, so the states differ at the end: equal ones have equal futures
    · by_contra hConverges
      rw [Bool.not_eq_false] at hConverges
      obtain ⟨o', ho', hWrong⟩ := hSilent.wrong
      have hState := eq_nextState_of_converges hConverges
      have hSame := Fault.eq_of_nextState_eq (hos ▸ ho) (Nat.le_add_right time _) hState ho'
        (by omega)
      exact of_decide_eq_false hWrong (Table.observed_congr hSame)

/-- A flip that leads to a silent error can go unnoticed within a window that fits into the run. -/
theorem exposed_of_silent (hWidth : ∀ xs ∈ inputs, xs.length = c.inputs.length)
    (hCalm : c.Calm inputs) (hk : 1 ≤ k) (hWindow : time + k ≤ inputs.length)
    (hSilent : Silent c ((⟨latch, time⟩ : Fault).replay c inputs) t) : Exposed c 0 k latch := by
  have hSame := List.forall₂_take k
    (Fault.same_drop_replay latch (Nat.le_of_add_right_le hWindow) hWidth)
  rw [← Fault.replayFrom_take] at hSame
  refine ⟨(c.run (inputs.take time)).state c, (inputs.drop time).take k, List.length_map _, ?_,
    fun xs hxs => ?_, fun o ho => ?_, (unnoticed_window hk hWindow hSilent).congr hSame⟩
  · rw [List.length_take, List.length_drop]
    omega
  · exact hWidth xs (List.mem_of_mem_drop (List.mem_of_mem_take hxs))
  · refine golden_alarm_of_same hSame (fun o ho => ?_) o ho
    exact Fault.golden_alarm_of_calm hCalm (List.mem_of_mem_drop (List.mem_of_mem_take ho))

/-- A run without golden alarms ends before the window after the flip of a protected latch, if
the flip leads to a silent error in it. -/
theorem IsProtected.length_lt (h : IsProtected c 0 k found) (hk : 1 ≤ k)
    {l : Latch} (hl : c.latches[latch]? = some l) (hMem : l.signal ∈ found)
    (hWidth : ∀ xs ∈ inputs, xs.length = c.inputs.length) (hCalm : c.Calm inputs)
    (hSilent : Silent c ((⟨latch, time⟩ : Fault).replay c inputs) t) :
    inputs.length < time + k := by
  obtain ⟨i, l', _, hl', hSignal, hNot⟩ := (h.mem_iff l.signal).mp hMem
  obtain rfl : i = latch := c.eq_of_signal_eq hl' hl hSignal
  by_contra hWindow
  exact hNot (exposed_of_silent hWidth hCalm hk (Nat.not_lt.mp hWindow) hSilent)

/-- The protected latches found by the analysis, with any exact procedure. -/
inductive Searched (c : Circuit) (o : Options) (mode : Mode) : List Signal → Prop where
  | report {found : List Signal} (h : Protection.report c o mode = .ok found) :
    Searched c o mode found
  | analyze {σ : Type} [DecisionProcedure σ] [ExactProcedure σ] {s s' : σ} {found : List Signal}
    (h : Returns (analyze c o mode) s found s') : Searched c o mode found

theorem Searched.isProtected {mode : Mode} (h : Searched c o mode found) :
    IsProtected c o.reserved mode.count found := by
  cases h with
  | report h => exact isProtected_of_report h
  | analyze h => exact analyze_returns h

theorem length_of_mem_bools {s : Stimulus} (hWidth : s.width = c.inputs.length) :
    ∀ xs ∈ s.bools, xs.length = c.inputs.length := by
  refine List.forall_mem_map.mpr fun vs hvs => ?_
  rw [List.length_map, s.width_eq vs hvs, hWidth]

/-- The run can go on without an alarm until a window of `k` steps from its last one is full. -/
def Continues (c : Circuit) (k : Nat) (inputs : List (List Bool)) : Prop :=
  ∃ more, (∀ xs ∈ more, xs.length = c.inputs.length) ∧ k ≤ more.length + 1 ∧
    c.Calm (inputs ++ more)

theorem continues_one (h : c.Calm inputs) : Continues c 1 inputs :=
  ⟨[], List.forall_mem_nil _, Nat.le_refl 1, (List.append_nil inputs).symm ▸ h⟩

theorem IsProtected.length_append_lt (h : IsProtected c 0 k found) (hk : 1 ≤ k) {l : Latch}
    (hl : c.latches[latch]? = some l) (hMem : l.signal ∈ found) {s : Stimulus}
    (hWidth : s.width = c.inputs.length)
    (hSilent : Silent c ((⟨latch, time⟩ : Fault).replay c s.bools) t) {more : List (List Bool)}
    (hMore : ∀ xs ∈ more, xs.length = c.inputs.length) (hCalm : c.Calm (s.bools ++ more)) :
    s.length + more.length < time + k := by
  have hAll := List.forall_mem_append.mpr ⟨length_of_mem_bools hWidth, hMore⟩
  have hLength := h.length_lt hk hl hMem hAll hCalm (hSilent.append more)
  rwa [List.length_append, Stimulus.bools, List.length_map] at hLength

theorem exists_silent_of_mem (hDefinite : ∀ s ∈ stimuli, s.hasFree = false)
    (h : Vulnerability.Searched c o stimuli report) {x : Signal} (hx : x ∈ report.vulnerable) :
    ∃ i l, c.latches[i]? = some l ∧ l.signal = x ∧ ∃ s ∈ stimuli, ∃ time t,
      Silent c ((⟨i, time⟩ : Fault).replay c s.bools) t := by
  obtain ⟨i, l, hl, rfl⟩ := h.isExact.reports.exists_latch x hx
  obtain ⟨s, hs, inputs, hAdmits, time, t, hSilent, _⟩ := ((h.isExact.reports.mem_iff hl).mp hx).2
  -- without free inputs there is one run on a stimulus
  obtain rfl := hAdmits.eq_readings (Stimulus.ne_free_of_hasFree (hDefinite s hs))
  exact ⟨i, l, hl, rfl, s, hs, time, t, hSilent⟩

/-- Where the windows fit, protected latches are not vulnerable. -/
theorem IsProtected.not_mem_vulnerable (h : IsProtected c 0 k found) (hk : 1 ≤ k)
    (hDefinite : ∀ s ∈ stimuli, s.hasFree = false)
    (hReport : Vulnerability.Searched c o stimuli report)
    (hContinues : ∀ s ∈ stimuli, Continues c k s.bools) : ∀ x ∈ found, x ∉ report.vulnerable := by
  intro x hx hMem
  obtain ⟨i, l, hl, rfl, s, hs, time, t, hSilent⟩ := exists_silent_of_mem hDefinite hReport hMem
  obtain ⟨more, hMore, hLength, hCalm⟩ := hContinues s hs
  have hLt := h.length_append_lt hk hl hx (hReport.width s hs) hSilent hMore hCalm
  have hTime : time ≤ t := hSilent.strikes.1
  have hError : t < s.length := hSilent.lt_length.trans_eq (List.length_map _)
  omega

/-- A latch that is protected in one step is not vulnerable on definite stimuli without golden
alarms, however long these are. -/
theorem oneStep_not_vulnerable (hReserved : o.reserved = 0)
    (hDefinite : ∀ s ∈ stimuli, s.hasFree = false) (hCalm : ∀ s ∈ stimuli, c.Calm s.bools) :
    (∀ found report, Searched c o .oneStep found → Vulnerability.Searched c o stimuli report →
      ∀ x ∈ found, x ∉ report.vulnerable) ∧
    (c.alarm?.isSome = true → o.backend = .search →
      (∀ s ∈ stimuli, s.width = c.inputs.length) →
        ∃ found report, Protection.report c o .oneStep = .ok found ∧
          Vulnerability.symbolic c o stimuli = .ok report) := by
  refine ⟨fun found report hFound hReport => ?_, fun hAlarm hBackend hWidth => ?_⟩
  · have hProtected := hFound.isProtected
    rw [hReserved] at hProtected
    exact hProtected.not_mem_vulnerable (Nat.le_refl 1) hDefinite hReport
      fun s hs => continues_one (hCalm s hs)
  · have hBound : o.reserved ≤ c.latches.length := hReserved ▸ Nat.zero_le _
    obtain ⟨found, hFound, _⟩ := exists_report_eq_ok hAlarm hBound hBackend .oneStep rfl
    obtain ⟨report, hReport⟩ :=
      Vulnerability.exists_symbolic_eq_ok hAlarm hBound hWidth hBackend
    exact ⟨found, report, hFound, hReport⟩

/-- Two latches that hold their values. The first one is shown at the output, and the second one
is the alarm. -/
def shownPair : Circuit where
  maxVar := 2
  inputs := []
  latches := [⟨⟨2⟩, ⟨2⟩, none⟩, ⟨⟨4⟩, ⟨4⟩, none⟩]
  outputs := [⟨2⟩, ⟨4⟩]
  gates := []
  wellFormed := ⟨by decide, by decide, by decide, by decide, by decide, by decide, trivial⟩

def twoSteps : Stimulus := ⟨0, [[], []], by decide⟩

theorem shownPair_not_vulnerable : ∃ found report,
    Protection.report shownPair {} .oneStep = .ok found ∧
      Vulnerability.symbolic shownPair {} [twoSteps] = .ok report ∧ found = [⟨4⟩] ∧
      report.vulnerable = [⟨2⟩] ∧ ∀ x ∈ found, x ∉ report.vulnerable := by
  have hFound : Protection.report shownPair {} .oneStep = .ok [⟨4⟩] :=
    eq_ok_of_toOption (by decide +kernel)
  have hReport : Vulnerability.symbolic shownPair {} [twoSteps] =
      .ok ⟨[⟨2⟩], [⟨⟨2⟩, 0, 0, [[]]⟩]⟩ := eq_ok_of_toOption (by decide +kernel)
  have hCalm : ∀ s ∈ [twoSteps], shownPair.Calm s.bools := by decide +kernel
  have hSound := (oneStep_not_vulnerable (o := {}) rfl (by decide) hCalm).1
  exact ⟨_, _, hFound, hReport, rfl, rfl, hSound _ _ (.report hFound) (.symbolic hReport)⟩

/-- A latch that is protected in `k` steps errs on definite stimuli without golden alarms only if
the window after the flip does not fit into the stimulus, nor into any way to go on without an
alarm. So it is not vulnerable if there is such a way from the end of each stimulus. -/
theorem steps_not_vulnerable (hReserved : o.reserved = 0) (hk : 1 ≤ k)
    (hDefinite : ∀ s ∈ stimuli, s.hasFree = false) (hCalm : ∀ s ∈ stimuli, c.Calm s.bools)
    (hFound : Searched c o (.steps k) found)
    (hReport : Vulnerability.Searched c o stimuli report) :
    (∀ i l, c.latches[i]? = some l → l.signal ∈ found → ∀ s ∈ stimuli, ∀ time t,
      Silent c ((⟨i, time⟩ : Fault).replay c s.bools) t → s.length < time + k ∧
        ∀ more, (∀ xs ∈ more, xs.length = c.inputs.length) → c.Calm (s.bools ++ more) →
          s.length + more.length < time + k) ∧
    ((∀ s ∈ stimuli, Continues c k s.bools) → ∀ x ∈ found, x ∉ report.vulnerable) := by
  have hProtected := hFound.isProtected
  rw [hReserved, Mode.count, Nat.max_eq_right hk] at hProtected
  refine ⟨fun i l hl hMem s hs time t hSilent => ?_,
    hProtected.not_mem_vulnerable hk hDefinite hReport⟩
  have hFits : ∀ more, (∀ xs ∈ more, xs.length = c.inputs.length) → c.Calm (s.bools ++ more) →
      s.length + more.length < time + k := fun more =>
    hProtected.length_append_lt hk hl hMem (hReport.width s hs) hSilent
  exact ⟨hFits [] (List.forall_mem_nil _) ((List.append_nil s.bools).symm ▸ hCalm s hs), hFits⟩

/-- The first latch is shown at the output and not protected. The value of the second one is lost
after the third one has taken it over as the alarm. -/
def partlyProtected : Circuit where
  maxVar := 3
  inputs := []
  latches := [⟨⟨2⟩, ⟨2⟩, none⟩, ⟨⟨4⟩, ⟨0⟩, none⟩, ⟨⟨6⟩, ⟨4⟩, none⟩]
  outputs := [⟨2⟩, ⟨6⟩]
  gates := []
  wellFormed := ⟨by decide, by decide, by decide, by decide, by decide, by decide, trivial⟩

/-- The run can go on for a third step. -/
theorem partlyProtected_not_vulnerable : ∃ found report,
    Protection.report partlyProtected {} (.steps 2) = .ok found ∧
      Vulnerability.symbolic partlyProtected {} [twoSteps] = .ok report ∧
      found = [⟨4⟩, ⟨6⟩] ∧ report.vulnerable = [⟨2⟩] ∧ ∀ x ∈ found, x ∉ report.vulnerable := by
  have hFound : Protection.report partlyProtected {} (.steps 2) = .ok [⟨4⟩, ⟨6⟩] :=
    eq_ok_of_toOption (by decide +kernel)
  have hReport : Vulnerability.symbolic partlyProtected {} [twoSteps] =
      .ok ⟨[⟨2⟩], [⟨⟨2⟩, 0, 0, [[]]⟩]⟩ := eq_ok_of_toOption (by decide +kernel)
  have hCalm : ∀ s ∈ [twoSteps], partlyProtected.Calm s.bools := by decide +kernel
  have hSound := (steps_not_vulnerable rfl (by decide) (by decide) hCalm (.report hFound)
    (.symbolic hReport)).2
  refine ⟨_, _, hFound, hReport, rfl, rfl, hSound (List.forall_mem_singleton.mpr ?_)⟩
  exact ⟨[[]], by decide, by decide, by decide +kernel⟩

/-- The first latch is shown at the output. The second one raises the alarm from the second step
on, whatever happens. -/
def secondStepAlarm : Circuit where
  maxVar := 2
  inputs := []
  latches := [⟨⟨2⟩, ⟨2⟩, none⟩, ⟨⟨4⟩, ⟨1⟩, none⟩]
  outputs := [⟨2⟩, ⟨4⟩]
  gates := []
  wellFormed := ⟨by decide, by decide, by decide, by decide, by decide, by decide, trivial⟩

/-- In two steps there is always a golden alarm, so that the first latch counts as protected. But
its flip is seen in a stimulus of one step. -/
theorem secondStepAlarm_vulnerable :
    Protection.report secondStepAlarm {} (.steps 2) = .ok [⟨2⟩, ⟨4⟩] ∧
      Vulnerability.symbolic secondStepAlarm {} [⟨0, [[]], by decide⟩] =
        .ok ⟨[⟨2⟩], [⟨⟨2⟩, 0, 0, [[]]⟩]⟩ ∧
      secondStepAlarm.Calm [[]] :=
  ⟨eq_ok_of_toOption (by decide +kernel), eq_ok_of_toOption (by decide +kernel),
    by decide +kernel⟩

end SoftError.Protection

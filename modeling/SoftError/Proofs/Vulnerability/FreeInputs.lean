import SoftError.Proofs.Vulnerability.Results

/-!
# Free inputs

A free input stands for some value. The search by explicit faults takes each value in turn, and
the incremental search reports the same latches unless the values decide about the golden
alarm. Where they do, a run with that alarm is an error to one search and not to the other, so
that an error can be lost when its definite inputs are made free.
-/

namespace SoftError

/-- The level is kept or made free. -/
def Level.Loosens (v v' : Level) : Prop := v' = v ∨ v' = .free

/-- Some inputs of the stimulus are made free. -/
def Stimulus.Loosens (s s' : Stimulus) : Prop :=
  List.Forall₂ (List.Forall₂ Level.Loosens) s.steps s'.steps

theorem Level.Loosens.admits {v v' : Level} (h : v.Loosens v') {b : Bool} (hAdmits : v.Admits b) :
    v'.Admits b := by
  rcases h with rfl | rfl
  · exact hAdmits
  · exact .inl rfl

theorem forall₂_of_forall₂ {α β γ : Type} {R : α → β → Prop} {S : α → γ → Prop} {T : β → γ → Prop}
    (hT : ∀ a b c, R a b → S a c → T b c) {as : List α} {bs : List β} {cs : List γ}
    (h : List.Forall₂ R as bs) (h' : List.Forall₂ S as cs) : List.Forall₂ T bs cs := by
  induction h generalizing cs with
  | nil =>
    cases h'
    exact .nil
  | cons hHead _ ih =>
    cases h' with
    | cons hHead' hTail' => exact .cons (hT _ _ _ hHead hHead') (ih hTail')

theorem Stimulus.Loosens.admits {s s' : Stimulus} (h : s.Loosens s') {inputs : List (List Bool)}
    (hAdmits : s.Admits inputs) : s'.Admits inputs := by
  have hStep : ∀ vs vs' xs, List.Forall₂ Level.Loosens vs vs' → List.Forall₂ Level.Admits vs xs →
      List.Forall₂ Level.Admits vs' xs := fun _ _ _ =>
    forall₂_of_forall₂ fun _ _ _ hLevel => hLevel.admits
  exact forall₂_of_forall₂ hStep h hAdmits

namespace Vulnerability

variable {c : Circuit} {o : Options} {stimuli : List Stimulus} {report explicit : Report}

theorem undisturbed_of_calm {inputs : List (List Bool)} {t : Nat}
    (h : c.Calm (inputs.take (t + 1))) (s : Stimulus) : Undisturbed c s inputs t := by
  intro i hi table a hTable _ _
  refine h table (List.mem_of_getElem? (i := i) ?_)
  rw [Circuit.tables_take, List.getElem?_take_of_lt (Nat.lt_succ_of_le hi), hTable]

theorem Erring.loosen {loosened : List Stimulus} {latch : Nat}
    (h : Erring c stimuli (fun _ inputs t => c.Calm (inputs.take (t + 1))) latch)
    (hLoosens : List.Forall₂ Stimulus.Loosens stimuli loosened) :
    Erring c loosened (Undisturbed c) latch := by
  obtain ⟨s, hs, inputs, hAdmits, time, t, hSilent, hCalm⟩ := h
  obtain ⟨i, hi, rfl⟩ := List.mem_iff_getElem.mp hs
  have hi' : i < loosened.length := hLoosens.length_eq ▸ hi
  have hLoosen : stimuli[i].Loosens loosened[i] := hLoosens.get hi hi'
  exact ⟨loosened[i], List.getElem_mem hi', inputs, hLoosen.admits hAdmits, time, t, hSilent,
    undisturbed_of_calm hCalm _⟩

section Explicit

variable (h : Searched c o stimuli report) (hExplicit : Explicit.analyze c o stimuli = .ok explicit)
include h hExplicit

theorem Searched.mem_vulnerable_iff {i : Nat} {l : Latch} (hl : c.latches[i]? = some l) :
    l.signal ∈ report.vulnerable ↔
      l.signal ∈ explicit.vulnerable ∧ Erring c stimuli (Undisturbed c) i := by
  rw [h.isExact.reports.mem_iff hl, (Explicit.reports_analyze hExplicit).mem_iff hl]
  constructor
  · rintro ⟨hChecked, hErring⟩
    exact ⟨⟨hChecked, hErring.imp fun _ _ _ _ _ _ => trivial⟩, hErring⟩
  · rintro ⟨⟨hChecked, _⟩, hErring⟩
    exact ⟨hChecked, hErring⟩

theorem Searched.mem_explicit {x : Signal} (hx : x ∈ report.vulnerable) :
    x ∈ explicit.vulnerable := by
  obtain ⟨i, l, hl, rfl⟩ := h.isExact.reports.exists_latch x hx
  exact ((h.mem_vulnerable_iff hExplicit hl).mp hx).1

/-- No latch is passed over if no run has a golden alarm, other than constant ones. -/
theorem Searched.vulnerable_eq
    (hUndisturbed : ∀ s ∈ stimuli, ∀ inputs, s.Admits inputs → Undisturbed c s inputs s.length) :
    report.vulnerable = explicit.vulnerable := by
  refine h.isExact.reports.vulnerable_eq (Explicit.reports_analyze hExplicit) fun i => ?_
  constructor
  · exact fun hErring => hErring.imp fun _ _ _ _ _ _ => trivial
  · exact fun hErring => hErring.imp fun s hs inputs hAdmits t _ =>
      (hUndisturbed s hs inputs hAdmits).upTo t

omit h in
theorem mem_loosened {loosened : List Stimulus} {report' : Report}
    (hLoosens : List.Forall₂ Stimulus.Loosens stimuli loosened)
    (h' : Searched c o loosened report') {i : Nat} {l : Latch} (hl : c.latches[i]? = some l)
    (hMem : l.signal ∈ explicit.vulnerable)
    (hErring : Erring c stimuli (fun _ inputs t => c.Calm (inputs.take (t + 1))) i) :
    l.signal ∈ report'.vulnerable := by
  have hChecked := ((Explicit.reports_analyze hExplicit).mem_iff hl).mp hMem
  exact (h'.isExact.reports.mem_iff hl).mpr ⟨hChecked.1, hErring.loosen hLoosens⟩

end Explicit

/-- Both searches come to a result, and the incremental one reports the latches found by explicit
faults that err in a run without golden alarms, other than constant ones. So the two agree if there
are no such alarms, and an error in a run without golden alarms is found as well when inputs are
made free. -/
theorem vulnerable_with_free_inputs (c : Circuit) (o : Options) (stimuli : List Stimulus) :
    (c.alarm?.isSome = true → o.reserved ≤ c.latches.length →
      (∀ s ∈ stimuli, s.width = c.inputs.length) →
        ((∀ s ∈ stimuli, s.freeCount ≤ Explicit.maxFree) →
          ∃ explicit, Explicit.analyze c o stimuli = .ok explicit) ∧
        (o.backend = .search → ∃ report, symbolic c o stimuli = .ok report)) ∧
    ∀ explicit report, Explicit.analyze c o stimuli = .ok explicit →
      Searched c o stimuli report →
        (∀ x ∈ report.vulnerable, x ∈ explicit.vulnerable) ∧
        (∀ i l, c.latches[i]? = some l → (l.signal ∈ report.vulnerable ↔
          l.signal ∈ explicit.vulnerable ∧ Erring c stimuli (Undisturbed c) i)) ∧
        ((∀ s ∈ stimuli, ∀ inputs, s.Admits inputs → Undisturbed c s inputs s.length) →
          report.vulnerable = explicit.vulnerable) ∧
        ∀ loosened report', List.Forall₂ Stimulus.Loosens stimuli loosened →
          Searched c o loosened report' → ∀ i l, c.latches[i]? = some l →
            l.signal ∈ explicit.vulnerable →
            Erring c stimuli (fun _ inputs t => c.Calm (inputs.take (t + 1))) i →
              l.signal ∈ report'.vulnerable := by
  refine ⟨fun hAlarm hReserved hWidth => ⟨?_, ?_⟩, fun explicit report hExplicit h => ?_⟩
  · exact Explicit.exists_analyze_eq_ok hAlarm hReserved hWidth
  · exact exists_symbolic_eq_ok hAlarm hReserved hWidth
  · refine ⟨fun _ => h.mem_explicit hExplicit, fun _ _ => h.mem_vulnerable_iff hExplicit,
      h.vulnerable_eq hExplicit, ?_⟩
    intro loosened report' hLoosens h' i l hl hMem hErring
    exact mem_loosened hExplicit hLoosens h' hl hMem hErring

def freeInput : Stimulus := ⟨1, [[.free], [.free]], by decide⟩

/-- The value of the latch is shown while the input is high, which it may be from the start. -/
theorem alarmedPair_free_inputs : ∃ explicit report report',
    Explicit.analyze alarmedPair {} [lateInput] = .ok explicit ∧
      symbolic alarmedPair {} [lateInput] = .ok report ∧
      symbolic alarmedPair {} [freeInput] = .ok report' ∧
      explicit.vulnerable = [⟨4⟩] ∧ report.vulnerable = explicit.vulnerable ∧
      ⟨4⟩ ∈ report'.vulnerable := by
  have hExplicit : Explicit.analyze alarmedPair {} [lateInput] =
      .ok ⟨[⟨4⟩], [⟨⟨4⟩, 0, 1, [[false], [true]]⟩]⟩ := eq_ok_of_toOption (by decide +kernel)
  obtain ⟨hResults, hSearched⟩ := vulnerable_with_free_inputs alarmedPair {} [lateInput]
  obtain ⟨report, hReport⟩ := (hResults rfl (Nat.zero_le _) (by decide)).2 rfl
  obtain ⟨report', hReport'⟩ : ∃ report', symbolic alarmedPair {} [freeInput] = .ok report' :=
    exists_symbolic_eq_ok rfl (Nat.zero_le _) (by decide) rfl
  obtain ⟨-, -, hEq, hLoosened⟩ := hSearched _ report hExplicit (.symbolic hReport)
  have hConstant : ∀ a ∈ Unrolling.alarms alarmedPair lateInput.steps, a.isConstant = true := by
    decide +kernel
  have hCalm : ∀ n ∈ List.range (1 <<< lateInput.freeCount),
      alarmedPair.Calm (lateInput.filling n) := by decide +kernel
  have hMem : (⟨4⟩ : Signal) ∈ [⟨4⟩] := List.mem_singleton_self _
  have hErring := (((Explicit.reports_analyze hExplicit).mem_iff (i := 0) rfl).mp hMem).2
  refine ⟨_, report, report', hExplicit, hReport, hReport', rfl, hEq ?_,
    hLoosened [freeInput] report' ?_ (.symbolic hReport') 0 _ rfl hMem (hErring.imp ?_)⟩
  · intro s hs inputs _ i _ table a _ ha hOpen
    obtain rfl := List.mem_singleton.mp hs
    rw [hConstant a (List.mem_of_getElem? ha)] at hOpen
    cases hOpen
  · exact .cons (.cons (.cons (.inr rfl) .nil) (.cons (.cons (.inl rfl) .nil) .nil)) .nil
  · intro s hs inputs hAdmits t _
    obtain rfl := List.mem_singleton.mp hs
    obtain ⟨n, hn, rfl⟩ := Stimulus.exists_filling hAdmits
    exact (hCalm n hn).take (t + 1)

/-- A latch that is high and holds its value. While the input is high, it is shown at the output
and raises the alarm. -/
def shownAlarm : Circuit where
  maxVar := 3
  inputs := [⟨2⟩]
  latches := [⟨⟨4⟩, ⟨4⟩, some true⟩]
  outputs := [⟨6⟩, ⟨6⟩]
  gates := [⟨⟨6⟩, ⟨4⟩, ⟨2⟩⟩]
  wellFormed := ⟨by decide, by decide, by decide, by decide, by decide, by decide,
    ⟨by decide, trivial⟩⟩

/-- The flip is lost when the input is made free, as it is seen only in a run with a golden
alarm. -/
theorem shownAlarm_lost :
    Explicit.analyze shownAlarm { diagnostic := false } [⟨1, [[.free]], by decide⟩] =
        .ok ⟨[⟨4⟩], []⟩ ∧
      symbolic shownAlarm { diagnostic := false } [⟨1, [[.high]], by decide⟩] =
        .ok ⟨[⟨4⟩], []⟩ ∧
      symbolic shownAlarm { diagnostic := false } [⟨1, [[.free]], by decide⟩] = .ok ⟨[], []⟩ :=
  ⟨eq_ok_of_toOption (by decide +kernel), eq_ok_of_toOption (by decide +kernel),
    eq_ok_of_toOption (by decide +kernel)⟩

end Vulnerability

end SoftError

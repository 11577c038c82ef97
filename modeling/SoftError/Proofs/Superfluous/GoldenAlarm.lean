import SoftError.Proofs.Decision.Progress
import SoftError.Proofs.Superfluous.Exact

/-!
# Golden alarms

Without free inputs a golden run is constant, so a session stops at its first alarm whatever the
procedure answers. The sessions of a location go through the stimuli in order, so the report
names the first stimulus with an alarm. That takes a session: where no location is left, none is
opened, and every alarm goes unnoticed.
-/

namespace SoftError.Superfluous

open Deciding

variable {c : Circuit} {p : Problem} {location : Location} {s : Stimulus} {r : Runs}

/-- The golden run raises the alarm at the given step. -/
def RaisesAt (c : Circuit) (s : Stimulus) (step : Nat) : Prop :=
  ∃ t, (c.tables s.bools)[step]? = some t ∧ t.alarm c = true

/-- No stimulus before this one raises the alarm, and this one does so at no step before. -/
structure IsFirstAlarm (c : Circuit) (stimuli : List Stimulus) (a : GoldenAlarm) : Prop where
  raises : ∃ s, stimuli[a.stimulus]? = some s ∧ RaisesAt c s a.step ∧
    ∀ step < a.step, ¬ RaisesAt c s step
  calm : ∀ i < a.stimulus, ∀ s, stimuli[i]? = some s → ∀ step, ¬ RaisesAt c s step

/-- The first step at which the golden run raises the alarm. -/
def firstAlarm? (c : Circuit) (s : Stimulus) : Option Nat :=
  (c.tables s.bools).findIdx? fun t => t.alarm c

/-- The first alarm of the golden runs, where the stimuli are counted from `index`. -/
def goldenAlarmFrom? (c : Circuit) : (index : Nat) → List Stimulus → Option GoldenAlarm
  | _, [] => none
  | index, s :: stimuli =>
    ((firstAlarm? c s).map (GoldenAlarm.mk index)).or (goldenAlarmFrom? c (index + 1) stimuli)

theorem raisesAt_iff {step : Nat} : RaisesAt c s step ↔
    ∃ h : step < (c.tables s.bools).length, (c.tables s.bools)[step].alarm c = true := by
  constructor
  · rintro ⟨t, ht, hAlarm⟩
    obtain ⟨hLt, rfl⟩ := List.getElem?_eq_some_iff.mp ht
    exact ⟨hLt, hAlarm⟩
  · rintro ⟨hLt, hAlarm⟩
    exact ⟨_, List.getElem?_eq_getElem hLt, hAlarm⟩

theorem firstAlarm?_eq_some_iff {step : Nat} : firstAlarm? c s = some step ↔
    RaisesAt c s step ∧ ∀ earlier < step, ¬ RaisesAt c s earlier := by
  rw [firstAlarm?, List.findIdx?_eq_some_iff_getElem, raisesAt_iff]
  constructor
  · rintro ⟨hLt, hAlarm, hEarlier⟩
    refine ⟨⟨hLt, hAlarm⟩, fun earlier hLess hRaises => ?_⟩
    obtain ⟨_, hRaised⟩ := raisesAt_iff.mp hRaises
    exact hEarlier earlier hLess hRaised
  · rintro ⟨⟨hLt, hAlarm⟩, hEarlier⟩
    refine ⟨hLt, hAlarm, fun earlier hLess hRaised => ?_⟩
    exact hEarlier earlier hLess (raisesAt_iff.mpr ⟨hLess.trans hLt, hRaised⟩)

theorem firstAlarm?_eq_none_iff : firstAlarm? c s = none ↔ ∀ step, ¬ RaisesAt c s step := by
  rw [firstAlarm?, List.findIdx?_eq_none_iff]
  constructor
  · rintro h step ⟨t, ht, hAlarm⟩
    rw [h t (List.mem_of_getElem? ht)] at hAlarm
    cases hAlarm
  · intro h t ht
    obtain ⟨step, hStep⟩ := List.mem_iff_getElem?.mp ht
    exact Bool.eq_false_iff.mpr fun hAlarm => h step ⟨t, hStep, hAlarm⟩

theorem isFirstAlarm_cons_zero {stimuli : List Stimulus} {step : Nat} :
    IsFirstAlarm c (s :: stimuli) ⟨0, step⟩ ↔ firstAlarm? c s = some step := by
  rw [firstAlarm?_eq_some_iff]
  constructor
  · rintro ⟨⟨s', hs', hRaises⟩, -⟩
    obtain rfl := Option.some.inj hs'
    exact hRaises
  · intro h
    exact ⟨⟨s, rfl, h⟩, fun i hi => absurd hi (Nat.not_lt_zero i)⟩

theorem isFirstAlarm_cons_succ {stimuli : List Stimulus} {i step : Nat} :
    IsFirstAlarm c (s :: stimuli) ⟨i + 1, step⟩ ↔
      firstAlarm? c s = none ∧ IsFirstAlarm c stimuli ⟨i, step⟩ := by
  rw [firstAlarm?_eq_none_iff]
  constructor
  · rintro ⟨hRaises, hCalm⟩
    exact ⟨hCalm 0 (Nat.succ_pos i) s rfl, hRaises,
      fun j hj => hCalm (j + 1) (Nat.succ_lt_succ hj)⟩
  · rintro ⟨hFirst, hRaises, hCalm⟩
    refine ⟨hRaises, fun j hj s' hs' => ?_⟩
    cases j with
    | zero =>
      obtain rfl := Option.some.inj hs'
      exact hFirst
    | succ j => exact hCalm j (Nat.lt_of_succ_lt_succ hj) s' hs'

theorem goldenAlarmFrom?_eq_some_iff {stimuli : List Stimulus} {index : Nat} {a : GoldenAlarm} :
    goldenAlarmFrom? c index stimuli = some a ↔
      ∃ i, a.stimulus = index + i ∧ IsFirstAlarm c stimuli ⟨i, a.step⟩ := by
  induction stimuli generalizing index with
  | nil =>
    refine iff_of_false nofun ?_
    rintro ⟨i, -, ⟨s, hs, -⟩, -⟩
    cases hs
  | cons s stimuli ih =>
    rw [goldenAlarmFrom?]
    cases hFirst : firstAlarm? c s with
    | some step =>
      rw [Option.map_some, Option.some_or, Option.some.injEq]
      constructor
      · rintro rfl
        exact ⟨0, rfl, isFirstAlarm_cons_zero.mpr hFirst⟩
      · rintro ⟨i, hi, hAlarm⟩
        cases i with
        | zero =>
          have hStep := hFirst.symm.trans (isFirstAlarm_cons_zero.mp hAlarm)
          obtain ⟨_, _⟩ := a
          cases hStep
          cases hi
          rfl
        | succ i =>
          have hNone := (isFirstAlarm_cons_succ.mp hAlarm).1
          rw [hFirst] at hNone
          cases hNone
    | none =>
      rw [Option.map_none, Option.none_or, ih]
      constructor
      · rintro ⟨i, hi, hAlarm⟩
        exact ⟨i + 1, by omega, isFirstAlarm_cons_succ.mpr ⟨hFirst, hAlarm⟩⟩
      · rintro ⟨i, hi, hAlarm⟩
        cases i with
        | zero =>
          have hSome := isFirstAlarm_cons_zero.mp hAlarm
          rw [hFirst] at hSome
          cases hSome
        | succ i => exact ⟨i, by omega, (isFirstAlarm_cons_succ.mp hAlarm).2⟩

theorem goldenAlarmFrom?_eq_none_iff {stimuli : List Stimulus} {index : Nat} :
    goldenAlarmFrom? c index stimuli = none ↔ ∀ s ∈ stimuli, ∀ step, ¬ RaisesAt c s step := by
  induction stimuli generalizing index with
  | nil => exact iff_of_true rfl (List.forall_mem_nil _)
  | cons s stimuli ih =>
    rw [goldenAlarmFrom?, Option.or_eq_none_iff, Option.map_eq_none_iff, firstAlarm?_eq_none_iff,
      ih, List.forall_mem_cons]

section Step

variable {t : Table Bool} {levels : List Level} (h : r.golden.table.Folds t)
  (hLength : levels.length = p.circuit.inputs.length) (hDefinite : ∀ v ∈ levels, v ≠ .free)
include h hLength hDefinite

/-- A step stops exactly at an alarm of the golden run, and goes on with its constants. -/
theorem step_folds (location : Location) (s : Stimulus) :
    (r.step p location s levels = none ∧
      (t.step p.circuit (levels.map Level.toBool)).alarm p.circuit = true) ∨
    ∃ x r', r.step p location s levels = some (x, r') ∧
      (t.step p.circuit (levels.map Level.toBool)).alarm p.circuit = false ∧
      r'.golden.table.Folds (t.step p.circuit (levels.map Level.toBool)) ∧ r'.time = r.time := by
  have hFolds := Unrolling.folds_drive (e := r.encoder) h hLength hDefinite
  have hAlarm := hFolds.alarm p.circuit
  rw [step_eq]
  cases hRaised : (t.step p.circuit (levels.map Level.toBool)).alarm p.circuit with
  | true =>
    rw [hRaised] at hAlarm
    exact .inl ⟨if_pos hAlarm, rfl⟩
  | false =>
    rw [hRaised] at hAlarm
    have hLow : (Unrolling.drive p.circuit (r.golden, r.encoder) levels).1.alarm p.circuit ≠ .top :=
      fun hTop => absurd (hAlarm.symm.trans hTop) (by decide)
    exact .inr ⟨_, _, if_neg hLow, rfl, hFolds, rfl⟩

end Step

variable {σ : Type} [DecisionProcedure σ] {st st' : σ} {ts : List SuperfluousTrace}
  {raised : Option Nat}

/-- A session is stopped by the first alarm of the golden run, and by nothing else. -/
theorem onSteps_raised {rest : List (List Level)} {t : Table Bool}
    (hLength : ∀ levels ∈ rest, levels.length = p.circuit.inputs.length)
    (hDefinite : ∀ levels ∈ rest, ∀ v ∈ levels, v ≠ .free) (h : r.golden.table.Folds t)
    (hReturns : Returns (onSteps p location s rest r) st (ts, raised) st') :
    raised = ((p.circuit.tablesFrom t (rest.map fun levels => levels.map Level.toBool)).findIdx?
      fun t => t.alarm p.circuit).map (r.time + ·) := by
  induction rest generalizing r t st st' ts raised with
  | nil =>
    obtain ⟨hEq, -⟩ := returns_pure.mp hReturns
    cases hEq
    rfl
  | cons levels rest ih =>
    obtain ⟨hFirst, hLength⟩ := List.forall_mem_cons.mp hLength
    obtain ⟨hHead, hDefinite⟩ := List.forall_mem_cons.mp hDefinite
    rw [List.map_cons, Circuit.tablesFrom, List.findIdx?_cons]
    rw [onSteps] at hReturns
    obtain ⟨hStep, hAlarm⟩ | ⟨x, r', hStep, hAlarm, hFolds, hTime⟩ :=
      step_folds h hFirst hHead location s
    · simp only [hStep] at hReturns
      obtain ⟨hEq, -⟩ := returns_pure.mp hReturns
      cases hEq
      rw [if_pos hAlarm]
      rfl
    · simp only [hStep] at hReturns
      -- the clauses and what is enumerated have no bearing on the golden run
      obtain ⟨_, _, _, hReturns⟩ := returns_bind.mp hReturns
      obtain ⟨_, _, _, hReturns⟩ := returns_bind.mp hReturns
      obtain ⟨_, _, _, hReturns⟩ := returns_bind.mp hReturns
      obtain ⟨found, _, _, hReturns⟩ := returns_bind.mp hReturns
      obtain ⟨⟨more, raised'⟩, _, hMore, hReturns⟩ := returns_bind.mp hReturns
      obtain ⟨hEq, -⟩ := returns_pure.mp hReturns
      cases hEq
      have hLow : ¬ (t.step p.circuit (levels.map Level.toBool)).alarm p.circuit = true :=
        Bool.eq_false_iff.mp hAlarm
      rw [ih hLength hDefinite (hFolds.advance p.circuit) hMore, if_neg hLow, Option.map_map]
      refine congrArg (Option.map · _) (funext fun i => ?_)
      change r'.time + 1 + i = r.time + (i + 1)
      omega

theorem onStimulus_raised {e : Encoder} (hWidth : s.width = p.circuit.inputs.length)
    (hFree : s.hasFree = false)
    (hReturns : Returns (onStimulus p location e s) st (ts, raised) st') :
    raised = firstAlarm? p.circuit s := by
  obtain ⟨_, _, _, hReturns⟩ := returns_bind.mp hReturns
  obtain ⟨_, _, _, hReturns⟩ := returns_bind.mp hReturns
  obtain ⟨result, _, hResult, hReturns⟩ := returns_bind.mp hReturns
  obtain ⟨_, _, _, hReturns⟩ := returns_bind.mp hReturns
  obtain ⟨rfl, -⟩ := returns_pure.mp hReturns
  have hRaised := onSteps_raised (fun levels hLevels => (s.width_eq levels hLevels).trans hWidth)
    (Stimulus.ne_free_of_hasFree hFree) (Table.folds_initial p.circuit) hResult
  have hStart : ((Runs.initial p (e.atMostOne location.selectors)).time + ·) = id :=
    funext Nat.zero_add
  rw [hRaised, hStart, Option.map_id_apply]
  rfl

/-- What a session finds if the golden run raises the alarm. -/
def sessionAlarm? (c : Circuit) (x : Location × Encoder × Nat × Stimulus) : Option GoldenAlarm :=
  (firstAlarm? c x.2.2.2).map (GoldenAlarm.mk x.2.2.1)

theorem onRuns_goldenAlarm {xs : List (Location × Encoder × Nat × Stimulus)} {report : Report}
    (hWidth : ∀ x ∈ xs, x.2.2.2.width = p.circuit.inputs.length)
    (hFree : ∀ x ∈ xs, x.2.2.2.hasFree = false)
    (hReturns : Returns (onRuns p xs) st report st') :
    report.goldenAlarm = xs.findSome? (sessionAlarm? p.circuit) := by
  induction xs generalizing st st' report with
  | nil =>
    obtain ⟨rfl, -⟩ := returns_pure.mp hReturns
    rfl
  | cons x xs ih =>
    obtain ⟨hFirst, hWidth⟩ := List.forall_mem_cons.mp hWidth
    obtain ⟨hHead, hFree⟩ := List.forall_mem_cons.mp hFree
    obtain ⟨⟨ts, raised⟩, _, hSession, hReturns⟩ := returns_bind.mp hReturns
    have hRaised := onStimulus_raised hFirst hHead hSession
    rw [List.findSome?_cons, sessionAlarm?, ← hRaised]
    cases raised with
    | some step =>
      obtain ⟨rfl, -⟩ := returns_pure.mp hReturns
      rfl
    | none =>
      obtain ⟨more, _, hMore, hReturns⟩ := returns_bind.mp hReturns
      obtain ⟨rfl, -⟩ := returns_pure.mp hReturns
      have hRest := ih hWidth hFree hMore
      exact hRest

theorem findSome?_sessions (c : Circuit) (location : Location) (e : Encoder) (index : Nat)
    (stimuli : List Stimulus) :
    (stimuli.mapIdx fun i s => (location, e, index + i, s)).findSome? (sessionAlarm? c) =
      goldenAlarmFrom? c index stimuli := by
  induction stimuli generalizing index with
  | nil => rfl
  | cons s stimuli ih =>
    have hShift : (fun i s => (location, e, index + (i + 1), s)) =
        fun i (s : Stimulus) => (location, e, index + 1 + i, s) := by
      funext i s
      rw [Nat.add_right_comm, Nat.add_assoc]
    rw [List.mapIdx_cons, List.findSome?_cons, hShift, ih, goldenAlarmFrom?, sessionAlarm?]
    cases firstAlarm? c s <;> rfl

/-- One location is enough to look at all golden runs, and the others add nothing. -/
theorem findSome?_runs {checked : List Component} (h : locations p checked ≠ [])
    (stimuli : List Stimulus) :
    (runs p checked stimuli).findSome? (sessionAlarm? p.circuit) =
      goldenAlarmFrom? p.circuit 0 stimuli := by
  have hSessions : ∀ x : Location × Encoder,
      (stimuli.mapIdx fun i s => (x.1, x.2, i, s)).findSome? (sessionAlarm? p.circuit) =
        goldenAlarmFrom? p.circuit 0 stimuli := by
    intro x
    rw [← findSome?_sessions p.circuit x.1 x.2 0 stimuli]
    simp only [Nat.zero_add]
  rw [runs]
  generalize locations p checked = xs at h
  induction xs with
  | nil => exact absurd rfl h
  | cons x xs ih =>
    rw [List.flatMap_cons, List.findSome?_append, hSessions x]
    cases xs with
    | nil => exact Option.or_none
    | cons y ys =>
      rw [ih (List.cons_ne_nil y ys)]
      exact Option.or_self

theorem locations_ne_nil {checked : List Component}
    (h : p.mode.symbolicLocation = true ∨ checked ≠ []) : locations p checked ≠ [] := by
  rw [locations]
  split
  · exact List.cons_ne_nil _ _
  · rename_i hFixed
    exact fun hNil => h.elim hFixed fun hChecked => hChecked (List.map_eq_nil_iff.mp hNil)

section Progress

/-- The literals that a choice of a latch sets. -/
def Location.choices : Location → List (List Lit)
  | fixed _ => [[]]
  | selected all => all.map fun k => [k.2]

/-- The clauses that exclude a flip. -/
def Runs.blocks (location : Location) (r : Runs) : List Clause :=
  r.flips.flatMap fun f => location.choices.map fun chosen => Clause.negate (f.2 :: chosen)

theorem length_blocks (location : Location) (r : Runs) :
    (r.blocks location).length ≤ r.choices location := by
  have hChoices : location.choices.length ≤ max 1 location.selectors.length := by
    cases location with
    | fixed k => exact le_max_left 1 _
    | selected all =>
      rw [Location.choices, Location.selectors, List.length_map, List.length_map]
      exact le_max_right 1 _
  have hLength : (r.blocks location).length = r.flips.length * location.choices.length := by
    simp [Runs.blocks, List.length_flatMap]
  rw [hLength, Runs.choices]
  exact Nat.mul_le_mul_left _ hChoices

theorem Location.exists_of_read {ρ : Assignment} (hρ : ρ ∈ pinned) {interest : List Lit}
    (hInterest : ∀ l ∈ location.selectors, l ∈ interest) {k : Component} {chosen : List Lit}
    (h : location.read ⟨modelLits ρ interest⟩ = some (k, chosen)) :
    chosen ∈ location.choices ∧ Meets ρ chosen := by
  cases location with
  | fixed k' =>
    cases h
    exact ⟨List.mem_singleton_self _, List.forall_mem_nil _⟩
  | selected all =>
    obtain ⟨candidate, hFind, hEq⟩ := Option.map_eq_some_iff.mp h
    cases hEq
    obtain ⟨-, hHolds⟩ := holds_of_find?
      (fun x hx => hInterest x.2 (List.mem_map_of_mem hx)) hρ hFind
    refine ⟨List.mem_map_of_mem (f := fun x => [x.2]) (List.mem_of_find?_eq_some hFind), ?_⟩
    exact fun l hl => List.mem_singleton.mp hl ▸ hHolds

theorem exists_of_read {ρ : Assignment} (hρ : ρ ∈ pinned) {block : Clause} {t : SuperfluousTrace}
    (h : r.read location s ⟨modelLits ρ (r.interest location)⟩ = some (block, t)) :
    block ∈ r.blocks location ∧ ρ ∉ block.models := by
  have hSelectors : ∀ l ∈ location.selectors, l ∈ r.interest location := fun l hl =>
    List.mem_append_left _ (List.mem_append_left _ (List.mem_append_left _ hl))
  have hFlips : ∀ f ∈ r.flips, f.2 ∈ r.interest location := fun f hf =>
    List.mem_append_left _ (List.mem_append_left _ (List.mem_append_right _
      (List.mem_map_of_mem hf)))
  obtain ⟨⟨time, flip⟩, hFind, h⟩ := Option.bind_eq_some_iff.mp h
  obtain ⟨⟨k, chosen⟩, hChosen, h⟩ := Option.bind_eq_some_iff.mp h
  cases h
  obtain ⟨-, hFlip⟩ := holds_of_find? hFlips hρ hFind
  obtain ⟨hMem, hMeets⟩ := Location.exists_of_read hρ hSelectors hChosen
  refine ⟨List.mem_flatMap.mpr ⟨_, List.mem_of_find?_eq_some hFind, List.mem_map_of_mem hMem⟩, ?_⟩
  rw [Clause.mem_models_negate, not_not]
  exact List.forall_mem_cons.mpr ⟨hFlip, hMeets⟩

variable [ExactProcedure σ] {Ready : Bool → σ → Prop}
  (hAnswers : Answering (fun _ => True) Ready) {nested : Bool}
include hAnswers

theorem yields_onSteps {M : Set Assignment} {stack : List (Set Assignment)}
    {steps : List (List Level)} (hs : Live Ready nested (M :: stack) st) (hPinned : M ⊆ pinned) :
    Yields (onSteps p location s steps r) st fun _ => Ready nested := by
  induction steps generalizing r M st with
  | nil => exact yields_pure hs.ready
  | cons levels steps ih =>
    rw [onSteps]
    cases hStep : r.step p location s levels with
    | none => exact yields_pure hs.ready
    | some next =>
      obtain ⟨x, r'⟩ := next
      refine (hAnswers.yields_forM_addFolded hs hPinned x.checks).bind fun _ _ hs₁ => ?_
      obtain ⟨M₁, hM₁, hs₁⟩ := hs₁
      have hPinned₁ := hM₁.trans hPinned
      refine (hAnswers.yields_addCnf hs₁ x.clauses).bind fun _ _ hs₂ => ?_
      have hPinned₂ := (Set.inter_subset_left (t := Cnf.models x.clauses)).trans hPinned₁
      refine (hAnswers.yields_addFolded hs₂ hPinned₂ x.alarm).bind fun _ _ hs₃ => ?_
      have hPinned₃ := (Set.inter_subset_left (t := Clause.models x.alarm)).trans hPinned₂
      refine (hAnswers.yields_enumerate_blocks (fun ρ hρ block t => exists_of_read hρ) hs₃ hPinned₃
        (length_blocks location r')).bind fun _ _ hs₄ => ?_
      obtain ⟨N, hN, hs₄⟩ := hs₄
      exact (ih hs₄ (hN.trans hPinned₃)).bind fun _ _ hReady => yields_pure hReady

theorem yields_onRuns {xs : List (Location × Encoder × Nat × Stimulus)} (hs : Ready nested st) :
    Yields (onRuns p xs) st fun _ _ => True := by
  induction xs generalizing nested st with
  | nil => exact yields_pure trivial
  | cons x xs ih =>
    have hSession : Yields (onStimulus p x.1 x.2.1 x.2.2.2) st fun _ => Ready false := by
      refine (hAnswers.yields_start hs x.1.selectors false).bind fun _ _ hs₁ => ?_
      refine (hAnswers.yields_addTop hs₁).bind fun _ _ hs₂ => ?_
      refine (yields_onSteps hAnswers hs₂ subset_rfl).bind fun _ _ hs₃ => ?_
      exact (hAnswers.yields_finish hs₃).bind fun _ _ hs₄ => yields_pure hs₄
    refine hSession.bind fun result _ hs' => ?_
    obtain ⟨ts, raised⟩ := result
    cases raised with
    | some step => exact yields_pure trivial
    | none => exact (ih hs').bind fun _ _ _ => yields_pure trivial

end Progress

section Analyze

variable {environment : Option Circuit} {mode : Mode} {o : Options} {stimuli : List Stimulus}
  {report : Report}

theorem checked_ne_nil {checked : List Component}
    (hChecked : checkedLatches c o.reserved = .ok checked) (h : o.reserved < c.latches.length) :
    checked ≠ [] := by
  obtain ⟨l, hl⟩ : ∃ l, c.latches[0]? = some l :=
    ⟨_, List.getElem?_eq_getElem (Nat.zero_lt_of_lt h)⟩
  have hMem := (mem_checkedLatches hChecked (k := ⟨0, l.signal⟩)).mpr
    ⟨Nat.sub_pos_of_lt h, l, hl, rfl⟩
  exact List.ne_nil_of_mem hMem

theorem checked_eq_nil {checked : List Component}
    (hChecked : checkedLatches c o.reserved = .ok checked) (h : o.reserved = c.latches.length) :
    checked = [] := by
  refine List.eq_nil_iff_forall_not_mem.mpr fun k hk => ?_
  have hLt := ((mem_checkedLatches hChecked).mp hk).1
  omega

/-- Where a session is opened, the report has the first golden alarm, and where none is, nothing. -/
theorem analyze_goldenAlarm (hMode : mode.freeInputs = false)
    (hReturns : Returns (analyze ⟨c, environment, mode, o.reserved⟩ stimuli) st report st') :
    (mode.symbolicLocation = true ∨ o.reserved < c.latches.length →
      report.goldenAlarm = goldenAlarmFrom? c 0 stimuli) ∧
    (mode.symbolicLocation = false → o.reserved = c.latches.length → report = ⟨[], none⟩) := by
  obtain ⟨checked, hChecked, hRuns, hReport⟩ := analyze_returns hReturns
  constructor
  · intro hLocation
    have hLocations : locations ⟨c, environment, mode, o.reserved⟩ checked ≠ [] :=
      locations_ne_nil (hLocation.imp_right fun hLt => checked_ne_nil hChecked hLt)
    rw [onRuns_goldenAlarm (fun x hx => (hRuns x hx).1.width)
      (fun x hx => (hRuns x hx).1.free hMode) hReport]
    exact findSome?_runs hLocations stimuli
  · intro hFixed hAll
    have hNone : runs ⟨c, environment, mode, o.reserved⟩ checked stimuli = [] := by
      rw [checked_eq_nil hChecked hAll, runs, locations, hFixed]
      rfl
    rw [hNone] at hReport
    exact (returns_pure.mp hReport).1

theorem report_eq (hMode : mode.freeInputs = false) (hAlarm : c.alarm?.isSome = true)
    (hEnvironment : environment.forM (checkEnvironment c) = .ok ()) :
    Superfluous.report c environment mode o stimuli =
      o.decide (analyze ⟨c, environment, mode, o.reserved⟩ stimuli) := by
  obtain ⟨alarm, hSome⟩ := Option.isSome_iff_exists.mp hAlarm
  rw [Superfluous.report, checkBackend, hMode, Problem.make, requireAlarm, hSome, hEnvironment]
  rfl

/-- Where no input is free, the report names the first golden alarm if there is one, provided that
some location is looked at. A single location is, unless all latches are reserved. -/
theorem golden_alarm_reported (hMode : mode.freeInputs = false) (hAlarm : c.alarm?.isSome = true)
    (hEnvironment : environment.forM (checkEnvironment c) = .ok ())
    (hReserved : o.reserved ≤ c.latches.length)
    (hWidth : ∀ s ∈ stimuli, s.width = c.inputs.length)
    (hFree : ∀ s ∈ stimuli, s.hasFree = false) :
    (o.backend = .search → ∃ r, Superfluous.report c environment mode o stimuli = .ok r) ∧
    (∀ e, Superfluous.report c environment mode o stimuli = .error e → ∃ e', e = .solver e') ∧
    ∀ r, Superfluous.report c environment mode o stimuli = .ok r →
      (mode.symbolicLocation = true ∨ o.reserved < c.latches.length →
        (∀ a, r.goldenAlarm = some a ↔ IsFirstAlarm c stimuli a) ∧
        (r.goldenAlarm = none ↔ ∀ s ∈ stimuli, ∀ step, ¬ RaisesAt c s step)) ∧
      (mode.symbolicLocation = false → o.reserved = c.latches.length → r = ⟨[], none⟩) := by
  obtain ⟨checked, hChecked⟩ := exists_checkedLatches hReserved
  have hStimuli : checkStimuli c false stimuli = .ok () :=
    checkStimuli_of_fits fun s hs => ⟨hWidth s hs, fun _ => hFree s hs⟩
  rw [report_eq hMode hAlarm hEnvironment]
  refine ⟨fun hBackend => ?_, fun e hError => ?_, fun r hReport => ?_⟩
  · refine exists_decide_eq_ok hBackend fun hAnswers hs => ?_
    rw [analyze, hMode, hStimuli, hChecked]
    exact (yields_onRuns hAnswers hs).adapt AnalysisError.solver
  · refine decide_fails (P := fun e => ∃ e', e = .solver e') (fun hFails => ?_) hError
    rw [analyze, hMode, hStimuli, hChecked] at hFails
    exact Fails.of_adapt hFails
  · have hGolden := decide_returns (fun hReturns => analyze_goldenAlarm hMode hReturns) hReport
    refine ⟨fun hLocation => ?_, hGolden.2⟩
    rw [hGolden.1 hLocation]
    refine ⟨fun a => ?_, goldenAlarmFrom?_eq_none_iff⟩
    rw [goldenAlarmFrom?_eq_some_iff]
    simp only [Nat.zero_add, exists_eq_left']

/-- The alarm is the input of the step before. -/
def delayed : Circuit where
  maxVar := 2
  inputs := [⟨2⟩]
  latches := [⟨⟨4⟩, ⟨2⟩, none⟩]
  outputs := [⟨4⟩]
  gates := []
  wellFormed := ⟨by decide, by decide, by decide, by decide, by decide, by decide, trivial⟩

def delayedStimuli : List Stimulus :=
  [⟨1, [[.low], [.low]], by decide⟩, ⟨1, [[.low], [.high], [.low]], by decide⟩]

theorem delayed_reported : ∃ r, Superfluous.report delayed none {} {} delayedStimuli = .ok r ∧
    r.goldenAlarm = some ⟨1, 2⟩ := by
  obtain ⟨hReports, -, hGolden⟩ := golden_alarm_reported (c := delayed) (o := {})
    (show ({} : Mode).freeInputs = false from rfl) (by decide)
    (show (none : Option Circuit).forM (checkEnvironment delayed) = .ok () from rfl) (by decide)
    (show ∀ s ∈ delayedStimuli, s.width = 1 by decide)
    (show ∀ s ∈ delayedStimuli, s.hasFree = false by decide)
  obtain ⟨r, hReport⟩ := hReports rfl
  refine ⟨r, hReport, (((hGolden r hReport).1 (.inr (by decide))).1 ⟨1, 2⟩).mpr ?_⟩
  have hFirst : goldenAlarmFrom? delayed 0 delayedStimuli = some ⟨1, 2⟩ := by decide +kernel
  obtain ⟨i, hi, hAlarm⟩ := goldenAlarmFrom?_eq_some_iff.mp hFirst
  obtain rfl : i = 1 := by simpa using hi.symm
  exact hAlarm

/-- The alarm is always high. -/
def alarming : Circuit where
  maxVar := 1
  inputs := []
  latches := [⟨⟨2⟩, ⟨0⟩, none⟩]
  outputs := [⟨1⟩]
  gates := []
  wellFormed := ⟨by decide, by decide, by decide, by decide, by decide, by decide, trivial⟩

def singleStep : Stimulus := ⟨0, [[]], by decide⟩

/-- If all latches are reserved, a golden alarm is reported by one mode and not by the other. -/
theorem alarming_unnoticed :
    RaisesAt alarming singleStep 0 ∧
      Superfluous.report alarming none {} { reserved := 1 } [singleStep] = .ok ⟨[], none⟩ ∧
      Superfluous.report alarming none { symbolicLocation := true } { reserved := 1 } [singleStep] =
        .ok ⟨[], some ⟨0, 0⟩⟩ := by
  exact ⟨⟨_, rfl, by decide +kernel⟩, rfl, rfl⟩

end Analyze

end SoftError.Superfluous

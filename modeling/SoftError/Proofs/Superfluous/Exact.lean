import SoftError.Proofs.Decision.Search
import SoftError.Proofs.Superfluous.Search

/-!
# Exactness of the analysis of superfluous alarms

A session starts without constraints on the fault, except that one latch is flipped at most. The
locations share the checked latches out between them, so that what the sessions of a stimulus
find are all its superfluous alarms, each one once.
-/

namespace SoftError.Superfluous

variable {p : Problem} {location : Location} {e : Encoder} {s : Stimulus}

/-- The encoder knows nothing but the selectors, and any of the latches can be selected. -/
structure Location.Ready (c : Circuit) (location : Location) (e : Encoder) : Prop where
  fits : location.Fits c
  pending : e.pending = #[]
  cache : ∀ cache, e.cache = some cache → cache = {}
  below : ∀ l ∈ location.selectors, l.var < e.nextVar
  selectable : ∀ k ∈ location.components, ∃ ρ ∈ pinned, AtMostOne ρ location.selectors ∧
    location.Selects c ρ k.index

theorem harmless_nil (p : Problem) (f : Fault) : Harmless p f [] := by
  intro i o ho
  cases ho

theorem concrete_initial (p : Problem) (e : Encoder) :
    ∀ t ∈ (Runs.initial p e).concrete, Concrete p [] (Runs.initial p e).golden.table t := by
  intro t ht
  rw [Option.mem_def, Runs.initial] at ht
  split at ht
  · cases ht
  · rename_i hNot
    cases ht
    rw [Bool.not_eq_true, Bool.or_eq_false_iff, Option.isSome_eq_false_iff,
      Option.isNone_iff_eq_none] at hNot
    exact ⟨hNot.2, hNot.1, rfl, Table.folds_initial p.circuit, fun f _ => harmless_nil p f⟩

theorem reads_initial {ρ : Assignment} (hρ : ρ ∈ pinned) :
    Reads p ρ (p.environment.map Unrolling.initial) fun env => env.run [] := by
  rw [Reads]
  cases p.environment with
  | none => exact .none
  | some env => exact .some (Table.values_initial (evaluation_holds hρ) env)

/-- At the start of a session any latch of the location can be selected. -/
theorem tracks_initial (h : location.Ready p.circuit e) :
    Tracks p pinned [] location [] (.initial p (e.atMostOne location.selectors)) := by
  have hConstrains := (Encoder.valid_empty h.pending h.cache).atMostOne h.below
  have hTwo := (e.atMostOne location.selectors).two_le_nextVar
  refine ⟨h.fits, hConstrains.valid, fun l hl => lt_of_lt_of_le (h.below l hl) hConstrains.le,
    List.forall_mem_nil _, List.forall_mem_nil _, List.forall_mem_nil _, List.forall_mem_nil _,
    Table.below_initial hTwo _, Table.below_initial hTwo _, ?_, List.forall_mem_nil _, rfl,
    List.forall_mem_nil _, List.nodup_nil, concrete_initial p _, List.forall_mem_nil _, ?_, ?_, ?_⟩
  · intro u hu
    obtain ⟨env, _, rfl⟩ := Option.map_eq_some_iff.mp hu
    exact Table.below_initial hTwo env
  · intro k _ time hTime
    exact absurd hTime (Nat.not_lt_zero time)
  · intro ρ hρ
    have hPinned := hConstrains.valid.mem_pinned hρ
    have hev := evaluation_holds hPinned
    refine ⟨(hConstrains.subset hρ).2, .nil, .nil, Table.values_initial hev _,
      reads_initial hPinned, fun f _ => ?_⟩
    exact ⟨Table.values_initial hev _, harmless_nil p f, rfl, List.not_mem_nil⟩
  · intro k hk time _ _ inputs hAdmits _
    cases hAdmits
    obtain ⟨ρ, hρ, hOne, hSelects⟩ := h.selectable k hk
    have hMem : ρ ∈ e.models pinned := by
      rw [Encoder.models_eq_of_pending h.pending]
      exact hρ
    obtain ⟨ρ', hρ', hAgree⟩ := hConstrains.lift ρ ⟨hMem, hOne⟩
    refine ⟨ρ', hρ', ⟨hSelects.congr hAgree h.below, List.forall_mem_nil _, ?_⟩, rfl,
      List.forall_mem_nil _⟩
    exact .inr (Nat.zero_le time)

section Locations

variable {checked : List Component}
  (hLatch : ∀ k ∈ checked, ∃ l, p.circuit.latches[k.index]? = some l ∧ k.signal = l.signal)
  (hNodup : (checked.map Component.index).Nodup)

/-- The locations share the checked latches out between them. -/
theorem components_locations (p : Problem) (checked : List Component) :
    (locations p checked).flatMap (fun x => x.1.components) = checked := by
  rw [locations]
  split
  · rw [List.flatMap_singleton]
    exact List.map_fst_zip (VarPool.initial.length_freshList _).ge
  · rw [List.flatMap_map]
    exact List.flatMap_singleton' checked

include hLatch hNodup

theorem ready_selected : (Location.selected (checked.zip
      (Encoder.caching.freshList checked.length).1)).Ready p.circuit
        (Encoder.caching.freshList checked.length).2 := by
  have hCandidates : Candidates p.circuit (checked.zip (VarPool.initial.freshList _).1) :=
    candidates_zip hLatch hNodup (VarPool.initial.length_freshList _).symm
  refine ⟨hCandidates, rfl, fun cache hSome => (Option.some.inj hSome).symm, ?_, ?_⟩
  · intro l hl
    obtain ⟨k, hk, rfl⟩ := List.mem_map.mp hl
    exact (OneHot.var_lt_of_mem_freshList (List.of_mem_zip hk).2).2
  · intro k hMem
    obtain ⟨k, hk, rfl⟩ := List.mem_map.mp hMem
    obtain ⟨ρ, hρ, hPicks⟩ := exists_selecting hNodup hk
    exact ⟨ρ, hρ, hCandidates.atMostOne_of_picks hPicks, hPicks, .inl (List.mem_map_of_mem hk)⟩

theorem ready_of_mem_locations {x : Location × Encoder} (hx : x ∈ locations p checked) :
    x.1.Ready p.circuit x.2 := by
  rw [locations] at hx
  split at hx
  · rw [List.mem_singleton.mp hx]
    exact ready_selected hLatch hNodup
  · obtain ⟨k, hk, rfl⟩ := List.mem_map.mp hx
    refine ⟨hLatch k hk, rfl, fun cache hSome => (Option.some.inj hSome).symm,
      List.forall_mem_nil _, ?_⟩
    intro k' hk'
    obtain ⟨ρ, hρ⟩ : ∃ ρ : Assignment, ρ ∈ pinned := ⟨fun _ => false, rfl⟩
    rw [List.mem_singleton.mp hk']
    exact ⟨ρ, hρ, .nil, rfl⟩

end Locations

/-- A fault of one of the latches cannot be found with the others. -/
theorem Covers.join {ks ks' : List Component} {ts ts' : List SuperfluousTrace}
    (h : Covers p s ks [] ts) (h' : Covers p s ks' [] ts')
    (hApart : ∀ k ∈ ks, ∀ k' ∈ ks', k.index ≠ k'.index) :
    Covers p s (ks ++ ks') [] (ts ++ ts') := by
  have hFirst : Covers p s (ks ++ ks') [] ts :=
    ⟨fun t ht => (h.shows t ht).imp_right fun hk => List.mem_append_left _ hk, h.nodup, h.unfound⟩
  refine hFirst.append ⟨fun t ht => ?_, h'.nodup, fun t ht hMem => ?_⟩
  · exact (h'.shows t ht).imp_right fun hk => List.mem_append_right _ hk
  · obtain ⟨t', ht', hEq⟩ := List.mem_map.mp hMem
    exact hApart _ (h.shows t' ht').2 _ (h'.shows t ht).2 (congrArg Fault.latch hEq)

theorem Spared.join {ks ks' : List Component} {found found' : List Fault}
    {steps : List (List Level)} (h : Spared p ks found steps) (h' : Spared p ks' found' steps) :
    Spared p (ks ++ ks') (found ++ found') steps := by
  intro k hk time hNot
  rw [List.mem_append, not_or] at hNot
  rcases List.mem_append.mp hk with hk | hk
  · exact h k hk time hNot.1
  · exact h' k hk time hNot.2

section Analyze

open Deciding ExactProcedure

variable {σ : Type} [DecisionProcedure σ] [ExactProcedure σ] {st st' : σ}
  {ts : List SuperfluousTrace} {raised : Option Nat} {report : Report}

theorem onStimulus_returns (h : location.Ready p.circuit e)
    (hWidth : s.width = p.circuit.inputs.length)
    (hFree : p.mode.freeInputs = false → s.hasFree = false)
    (hReturns : Returns (onStimulus p location e s) st (ts, raised) st') :
    Covers p s location.components [] ts ∧ (raised = none →
      Spared p location.components (ts.map SuperfluousTrace.fault) s.steps) := by
  obtain ⟨_, st₁, hStart, hReturns⟩ := returns_bind.mp hReturns
  obtain ⟨_, st₂, hTop, hReturns⟩ := returns_bind.mp hReturns
  obtain ⟨result, st₃, hResult, hReturns⟩ := returns_bind.mp hReturns
  obtain ⟨_, st₄, _, hReturns⟩ := returns_bind.mp hReturns
  obtain ⟨rfl, _⟩ := returns_pure.mp hReturns
  have hSpared : Spared p location.components [] [] := by
    intro k _ time _ n inputs hAdmits hRecovers
    rw [List.take_nil] at hAdmits
    cases hAdmits
    exact Nat.not_lt_zero _ hRecovers.strikes.1
  exact onSteps_returns (show s.steps = [] ++ s.steps from rfl) hWidth hFree (tracks_initial h)
    hSpared (frames_opened hStart hTop) hResult

/-- A session is well prepared, on a stimulus that the analysis accepts. -/
structure Fitting (p : Problem) (x : Location × Encoder × Nat × Stimulus) : Prop where
  ready : x.1.Ready p.circuit x.2.1
  width : x.2.2.2.width = p.circuit.inputs.length
  free : p.mode.freeInputs = false → x.2.2.2.hasFree = false

variable {xs : List (Location × Encoder × Nat × Stimulus)}

theorem onRuns_shows (hFitting : ∀ x ∈ xs, Fitting p x)
    (hReturns : Returns (onRuns p xs) st report st') :
    ∀ t ∈ report.traces, ∃ x ∈ xs, Replays p x.2.2.2 t ∧ t.component ∈ x.1.components := by
  induction xs generalizing st st' report with
  | nil =>
    obtain ⟨rfl, _⟩ := returns_pure.mp hReturns
    exact List.forall_mem_nil _
  | cons x xs ih =>
    obtain ⟨hx, hFitting⟩ := List.forall_mem_cons.mp hFitting
    obtain ⟨⟨ts, raised⟩, st₁, hFirst, hReturns⟩ := returns_bind.mp hReturns
    have hCovers := (onStimulus_returns hx.ready hx.width hx.free hFirst).1
    have hHere : ∀ t ∈ ts, ∃ y ∈ x :: xs, Replays p y.2.2.2 t ∧ t.component ∈ y.1.components :=
      fun t ht => ⟨x, List.mem_cons_self, hCovers.shows t ht⟩
    cases raised with
    | some step =>
      obtain ⟨rfl, _⟩ := returns_pure.mp hReturns
      exact hHere
    | none =>
      obtain ⟨more, st₂, hMore, hReturns⟩ := returns_bind.mp hReturns
      obtain ⟨rfl, _⟩ := returns_pure.mp hReturns
      refine List.forall_mem_append.mpr ⟨hHere, fun t ht => ?_⟩
      obtain ⟨y, hy, hShows⟩ := ih hFitting hMore t ht
      exact ⟨y, List.mem_cons_of_mem _ hy, hShows⟩

theorem onRuns_covers (hFitting : ∀ x ∈ xs, Fitting p x) (hSame : ∀ x ∈ xs, x.2.2.2 = s)
    (hNodup : ((xs.flatMap fun x => x.1.components).map Component.index).Nodup)
    (hReturns : Returns (onRuns p xs) st report st') (hGolden : report.goldenAlarm = none) :
    Covers p s (xs.flatMap fun x => x.1.components) [] report.traces ∧
      Spared p (xs.flatMap fun x => x.1.components) (report.traces.map SuperfluousTrace.fault)
        s.steps := by
  induction xs generalizing st st' report with
  | nil =>
    obtain ⟨rfl, _⟩ := returns_pure.mp hReturns
    exact ⟨.nil, List.forall_mem_nil _⟩
  | cons x xs ih =>
    obtain ⟨hx, hFitting⟩ := List.forall_mem_cons.mp hFitting
    obtain ⟨rfl, hSame⟩ := List.forall_mem_cons.mp hSame
    rw [List.flatMap_cons, List.map_append, List.nodup_append] at hNodup
    obtain ⟨_, hNodup, hApart⟩ := hNodup
    obtain ⟨⟨ts, raised⟩, st₁, hFirst, hReturns⟩ := returns_bind.mp hReturns
    obtain ⟨hCovers, hSpared⟩ := onStimulus_returns hx.ready hx.width hx.free hFirst
    cases raised with
    | some step =>
      obtain ⟨rfl, _⟩ := returns_pure.mp hReturns
      cases hGolden
    | none =>
      obtain ⟨more, st₂, hMore, hReturns⟩ := returns_bind.mp hReturns
      obtain ⟨rfl, _⟩ := returns_pure.mp hReturns
      obtain ⟨hLater, hNone⟩ := ih hFitting hSame hNodup hMore hGolden
      rw [List.flatMap_cons, List.map_append]
      refine ⟨hCovers.join hLater fun k hk k' hk' => ?_, (hSpared rfl).join hNone⟩
      exact hApart _ (List.mem_map_of_mem hk) _ (List.mem_map_of_mem hk')

theorem components_runs {checked : List Component} :
    (runs p checked [s]).flatMap (fun x => x.1.components) = checked := by
  have hEq : runs p checked [s] = (locations p checked).map fun x => (x.1, x.2, 0, s) :=
    List.map_eq_flatMap.symm
  rw [hEq, List.flatMap_map]
  exact components_locations p checked

omit [ExactProcedure σ] in
theorem analyze_returns {stimuli : List Stimulus}
    (hAnalyze : Returns (analyze p stimuli) st report st') :
    ∃ checked, checkedLatches p.circuit p.reserved = .ok checked ∧
      (∀ x ∈ runs p checked stimuli, Fitting p x ∧ x.2.2.2 ∈ stimuli ∧
        ∀ k ∈ x.1.components, k ∈ checked) ∧
      Returns (onRuns p (runs p checked stimuli)) st report st' := by
  obtain ⟨_, st₁, hFirst, hRest⟩ := returns_bind.mp hAnalyze
  obtain ⟨checked, st₂, hSecond, hRuns⟩ := returns_bind.mp hRest
  obtain ⟨hStimuli, rfl⟩ := returns_ofExcept.mp hFirst
  obtain ⟨hChecked, rfl⟩ := returns_ofExcept.mp hSecond
  have hLatch := fun k hk => ((mem_checkedLatches hChecked (k := k)).mp hk).2
  refine ⟨checked, hChecked, fun x hx => ?_, returns_adapt.mp hRuns⟩
  obtain ⟨y, hy, hx⟩ := List.mem_flatMap.mp hx
  obtain ⟨i, hi, rfl⟩ := List.mem_mapIdx.mp hx
  have hMem : stimuli[i] ∈ stimuli := List.getElem_mem hi
  obtain ⟨hWidth, hFree⟩ := checkStimuli_eq_ok hStimuli _ hMem
  refine ⟨⟨ready_of_mem_locations hLatch (checkedLatches_nodup hChecked) hy, hWidth, hFree⟩, hMem,
    fun k hk => ?_⟩
  rw [← components_locations p checked]
  exact List.mem_flatMap.mpr ⟨y, hy, hk⟩

def resettingTrace : SuperfluousTrace := ⟨⟨0, ⟨4⟩⟩, 0, 0, 1, ⟨1, [[.high]], by decide⟩⟩

theorem resetting_returns : ∃ st', Returns (analyze resetting [anyInput])
    (SearchSession.ofOptions {}) ⟨[resettingTrace], none⟩ st' := by
  exact ⟨_, returns_of_toOption (by decide +kernel)⟩

/-- The faults that are found are those that raise a superfluous alarm. -/
theorem mem_faults_iff {checked : List Component}
    (hCovers : Covers p s checked [] ts)
    (hSpared : Spared p checked (ts.map SuperfluousTrace.fault) s.steps) {k : Component}
    (hk : k ∈ checked) (time : Nat) :
    (⟨k.index, time⟩ : Fault) ∈ ts.map SuperfluousTrace.fault ↔
      ∃ inputs t, SuperfluousAlarm p s ⟨k.index, time⟩ inputs t := by
  constructor
  · intro hMem
    obtain ⟨t, ht, hEq⟩ := List.mem_map.mp hMem
    obtain ⟨inputs, hAlarm⟩ := (hCovers.shows t ht).1.exists_superfluousAlarm
    exact ⟨inputs, t.gone - 1, hEq ▸ hAlarm⟩
  · rintro ⟨inputs, t, hAlarm⟩
    by_contra hNot
    exact hSpared k hk time hNot (t + 1) _ (hAlarm.admits.take (t + 1)) hAlarm.recovers

/-- A trace of a checked latch is told by its fault. -/
theorem countP_eq_count {checked : List Component} {found : List Fault}
    (hChecked : checkedLatches p.circuit p.reserved = .ok checked)
    (hCovers : Covers p s checked found ts) {i : Nat} {l : Latch}
    (hl : p.circuit.latches[i]? = some l) (time : Nat) :
    ts.countP (fun t => t.component = ⟨i, l.signal⟩ ∧ t.flip = time) =
      (ts.map SuperfluousTrace.fault).count ⟨i, time⟩ := by
  rw [List.count, List.countP_map]
  refine List.countP_congr fun t ht => ?_
  rw [Function.comp_apply, decide_eq_true_eq, beq_iff_eq, SuperfluousTrace.fault, Fault.mk.injEq]
  refine and_congr_left fun _ => ⟨fun hEq => hEq ▸ rfl, fun hIndex => ?_⟩
  obtain ⟨_, l', hl', hSignal⟩ := (mem_checkedLatches hChecked).mp (hCovers.shows t ht).2
  rw [hIndex, hl] at hl'
  rw [Option.some.inj hl', ← hSignal, ← hIndex]

/-- A fault has exactly one trace if it raises a superfluous alarm, and none otherwise. -/
theorem countP_traces (hReturns : Returns (analyze p [s]) st report st')
    (hGolden : report.goldenAlarm = none) {i : Nat} {l : Latch}
    (hl : p.circuit.latches[i]? = some l) (hi : i < p.circuit.latches.length - p.reserved)
    (time : Nat) :
    ((∃ inputs t, SuperfluousAlarm p s ⟨i, time⟩ inputs t) →
      report.traces.countP (fun t => t.component = ⟨i, l.signal⟩ ∧ t.flip = time) = 1) ∧
    ((¬ ∃ inputs t, SuperfluousAlarm p s ⟨i, time⟩ inputs t) →
      report.traces.countP (fun t => t.component = ⟨i, l.signal⟩ ∧ t.flip = time) = 0) := by
  obtain ⟨checked, hChecked, hRuns, hReport⟩ := analyze_returns hReturns
  have hSame : ∀ x ∈ runs p checked [s], x.2.2.2 = s :=
    fun x hx => List.mem_singleton.mp (hRuns x hx).2.1
  have hBoth := onRuns_covers (fun x hx => (hRuns x hx).1) hSame
    (by rw [components_runs]; exact checkedLatches_nodup hChecked) hReport hGolden
  rw [components_runs] at hBoth
  obtain ⟨hCovers, hSpared⟩ := hBoth
  have hk : (⟨i, l.signal⟩ : Component) ∈ checked :=
    (mem_checkedLatches hChecked).mpr ⟨hi, l, hl, rfl⟩
  have hIff := mem_faults_iff hCovers hSpared hk time
  rw [countP_eq_count hChecked hCovers hl, ← hIff]
  exact ⟨List.count_eq_one_of_mem hCovers.nodup, List.count_eq_zero_of_not_mem⟩

theorem resetting_countP : ∃ st',
    Returns (analyze resetting [anyInput]) (SearchSession.ofOptions {})
        ⟨[resettingTrace], none⟩ st' ∧
      (∃ inputs t, SuperfluousAlarm resetting anyInput ⟨0, 0⟩ inputs t) ∧
      ¬ ∃ inputs t, SuperfluousAlarm resetting anyInput ⟨0, 1⟩ inputs t := by
  obtain ⟨st', hReturns⟩ := resetting_returns
  have hTraces := countP_traces (i := 0) hReturns rfl rfl (by decide)
  refine ⟨st', hReturns, ?_, fun hAlarm => ?_⟩
  · by_contra hNone
    exact absurd ((hTraces 0).2 hNone) (by decide)
  · exact absurd ((hTraces 1).1 hAlarm) (by decide)

/-- Each trace is that of a checked latch, and it replays on one of the stimuli. -/
theorem replays_of_mem_traces {stimuli : List Stimulus}
    (hReturns : Returns (analyze p stimuli) st report st') :
    ∀ t ∈ report.traces,
      (t.component.index < p.circuit.latches.length - p.reserved ∧
        ∃ l, p.circuit.latches[t.component.index]? = some l ∧ t.component.signal = l.signal) ∧
      ∃ s ∈ stimuli, Replays p s t := by
  obtain ⟨checked, hChecked, hRuns, hReport⟩ := analyze_returns hReturns
  intro t ht
  obtain ⟨x, hx, hReplays, hComponent⟩ := onRuns_shows (fun x hx => (hRuns x hx).1) hReport t ht
  obtain ⟨_, hMem, hComponents⟩ := hRuns x hx
  exact ⟨(mem_checkedLatches hChecked).mp (hComponents _ hComponent), _, hMem, hReplays⟩

theorem resettingTrace_replays : ∃ st',
    Returns (analyze resetting [anyInput]) (SearchSession.ofOptions {})
        ⟨[resettingTrace], none⟩ st' ∧
      ∃ s ∈ [anyInput], Replays resetting s resettingTrace := by
  obtain ⟨st', hReturns⟩ := resetting_returns
  have hTrace := replays_of_mem_traces hReturns resettingTrace (List.mem_singleton_self _)
  exact ⟨st', hReturns, hTrace.2⟩

end Analyze

end SoftError.Superfluous

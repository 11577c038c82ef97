import SoftError.Proofs.Superfluous.Step
import SoftError.Superfluous.Basic

/-!
# Exactness of the search for superfluous alarms

Each model found in a step is read back as the trace of the fault that it chooses, which is
blocked from then on. As the enumeration of a step goes on until there is no model left, a fault
that has not been found has not recovered up to that step.
-/

namespace SoftError.Superfluous

variable {p : Problem} {M N : Set Assignment} {past : List (List Level)} {levels : List Level}
  {location : Location} {s : Stimulus} {found : List Fault} {x : Extension} {r : Runs}

/-- No fault of the latches that has not been found recovers within the steps. -/
def Spared (p : Problem) (ks : List Component) (found : List Fault) (steps : List (List Level)) :
    Prop :=
  ∀ k ∈ ks, ∀ time, ⟨k.index, time⟩ ∉ found → ∀ n inputs,
    AdmitsSteps (steps.take n) inputs → ¬ Recovers p ⟨k.index, time⟩ inputs

/-- The trace of the fault chosen by a model, and the clause that blocks this fault. -/
structure Reading (p : Problem) (location : Location) (r : Runs) (ρ : Assignment) (block : Clause)
    (t : SuperfluousTrace) : Prop where
  chooses : Chooses p.circuit location (r.advance p) ρ t.fault
  component : t.component ∈ location.components
  flip : t.flip ∈ r.flips.map Prod.fst
  gone : t.gone = r.time + 1
  steps : t.stimulus.steps = (r.values ρ).map fun xs => xs.map Level.ofBool
  alarm : (t.fault.replay p.circuit (r.values ρ)).findIdx? (fun o => o.faulty.alarm p.circuit) =
    some t.alarm
  below : ∀ l ∈ block, l.var < r.encoder.nextVar
  blocks : ∀ ρ' f, Chooses p.circuit location (r.advance p) ρ' f →
    (ρ' ∈ block.models ↔ f ≠ t.fault)

section Grows

variable (h : Grows p M past levels location s found x r)
include h

theorem Grows.models_eq : (r.advance p).encoder.models (told M x) = told M x :=
  Encoder.models_eq_of_pending h.handed

theorem Grows.time : r.time = past.length := by
  have hTime := h.tracks.time
  rw [List.length_append] at hTime
  exact Nat.succ.inj hTime

theorem Grows.follows {ρ : Assignment} (hρ : ρ ∈ told M x) :
    Follows p (past ++ [levels]) location (x.settled found) (r.advance p) ρ :=
  h.tracks.sound ρ (by rwa [h.models_eq])

end Grows

/-- An assignment selects a latch, or none. -/
theorem Location.Fits.exists_selects {c : Circuit} {location : Location} (h : location.Fits c)
    {ρ : Assignment} (hOne : AtMostOne ρ location.selectors) :
    ∃ j, location.Selects c ρ j ∧
      (j ∈ location.components.map Component.index ∨ c.latches.length ≤ j) := by
  cases location with
  | fixed k => exact ⟨k.index, rfl, .inl (List.mem_singleton_self _)⟩
  | selected all =>
    obtain ⟨j, hPicks, hj⟩ := Candidates.exists_picks h hOne
    have hj : j ∈ all.map (fun k => k.1.index) ∨ c.latches.length ≤ j :=
      hj.imp_right fun hEq => Nat.le_of_eq hEq.symm
    refine ⟨j, ⟨hPicks, hj⟩, hj.imp_left fun hMem => ?_⟩
    rw [Location.components, List.map_map]
    exact hMem

/-- The latch that an assignment selects, with literals that say so. -/
theorem Location.Fits.read_eq {c : Circuit} {location : Location} (h : location.Fits c)
    {ρ : Assignment} {m : Model} (hTrue : ∀ l ∈ location.selectors, m.isTrue l = l.holds ρ)
    {k : Component} (hk : k ∈ location.components) (hSelects : location.Selects c ρ k.index) :
    ∃ chosen, location.read m = some (k, chosen) ∧ (∀ l ∈ chosen, l ∈ location.selectors) ∧
      ∀ ρ' j, location.Selects c ρ' j → (Meets ρ' chosen ↔ j = k.index) := by
  cases location with
  | fixed k' =>
    obtain rfl := List.mem_singleton.mp hk
    refine ⟨[], rfl, List.forall_mem_nil _, fun ρ' j hj => ?_⟩
    exact iff_of_true (List.forall_mem_nil _) hj
  | selected all =>
    obtain ⟨q, hq, rfl⟩ := List.mem_map.mp hk
    have hFind := Candidates.find?_of_picks h (p := m.isTrue)
      (fun k hk => hTrue k.2 (List.mem_map_of_mem hk)) hq hSelects.1
    refine ⟨[q.2], ?_, ?_, fun ρ' j hj => ?_⟩
    · rw [Location.read, hFind]
      rfl
    · intro l hl
      rw [List.mem_singleton.mp hl]
      exact List.mem_map_of_mem hq
    · rw [meets_singleton, hj.1.holds hq, decide_eq_true_eq, eq_comm]

section Read

variable (h : Grows p M past levels location s found x r)
include h

/-- A model whose check is switched on chooses a fault that recovers. -/
theorem Grows.exists_recovers {ρ : Assignment} (hρ : ρ ∈ told M x)
    (hMeets : Meets ρ x.assumptions) :
    ∃ k ∈ location.components, ∃ time ∈ r.flips.map Prod.fst,
      Chooses p.circuit location (r.advance p) ρ ⟨k.index, time⟩ ∧
      Recovers p ⟨k.index, time⟩ (r.values ρ) := by
  have hFollows := h.follows hρ
  obtain ⟨j, hSelects, hj⟩ := h.tracks.fits.exists_selects hFollows.atMostOne
  have hLate : r.time + 1 ∉ r.flips.map Prod.fst := by
    intro hMem
    obtain ⟨y, hy, hEq⟩ := List.mem_map.mp hMem
    exact Nat.ne_of_lt (h.tracks.times y hy) hEq
  obtain ⟨time, hTime, hMem⟩ := exists_picks hFollows.atMostOnce h.tracks.distinct hLate
  have hChooses : Chooses p.circuit location (r.advance p) ρ ⟨j, time⟩ :=
    ⟨hSelects, hTime, hMem.imp_right fun hEq => Nat.le_of_eq hEq.symm⟩
  have hRecovers := h.shows ρ hρ hMeets _ hChooses
  obtain ⟨hStruck, hExists⟩ := hRecovers.strikes
  have hLength : past.length + 1 = (r.values ρ).length := by
    have hEq := hFollows.admits.length_eq
    rwa [List.length_append] at hEq
  obtain ⟨k, hk, rfl⟩ := List.mem_map.mp (hj.resolve_right (Nat.not_le_of_lt hExists))
  refine ⟨k, hk, time, hMem.resolve_right fun hEq => ?_, hChooses, hRecovers⟩
  rw [← hLength, hEq, h.time] at hStruck
  exact Nat.lt_irrefl _ hStruck

theorem Grows.isTrue_eq {ρ : Assignment} (hρ : ρ ∈ told M x) {l : Lit}
    (hl : l.isConstant = true ∨ l ∈ r.interest location) :
    Model.isTrue ⟨modelLits ρ (r.interest location)⟩ l = l.holds ρ :=
  isTrue_modelLits (h.tracks.valid.pinned hρ) (hl.imp_right fun hMem => List.mem_map_of_mem hMem)

/-- The alarms of a model are those of the fault that it chooses. -/
theorem Grows.findIdx?_alarms {ρ : Assignment} (hρ : ρ ∈ told M x) {f : Fault}
    (hf : Chooses p.circuit location (r.advance p) ρ f) :
    r.alarms.findIdx? (Model.isTrue ⟨modelLits ρ (r.interest location)⟩) =
      (f.replay p.circuit (r.values ρ)).findIdx? fun o => o.faulty.alarm p.circuit := by
  have hMap : r.alarms.map (Model.isTrue ⟨modelLits ρ (r.interest location)⟩) =
      r.alarms.map (Lit.holds ρ) := by
    refine List.map_congr_left fun l hl => h.isTrue_eq hρ ?_
    cases hConstant : l.isConstant with
    | true => exact .inl rfl
    | false =>
      right
      simp only [Runs.interest, List.mem_append]
      exact .inl (.inr (List.mem_filter.mpr ⟨hl, by rw [hConstant]; rfl⟩))
  have hAlarms := hMap.trans ((h.follows hρ).runs f hf).alarms
  have hIndex := congrArg (List.findIdx? id) hAlarms
  rwa [List.findIdx?_map, List.findIdx?_map] at hIndex

/-- A model whose check is switched on is read as the trace of the fault that it chooses. -/
theorem Grows.reading (hSteps : s.steps.take (past.length + 1) = past ++ [levels])
    {ρ : Assignment} (hρ : ρ ∈ told M x) (hMeets : Meets ρ x.assumptions) :
    ∃ block t, r.read location s ⟨modelLits ρ (r.interest location)⟩ = some (block, t) ∧
      Reading p location r ρ block t := by
  obtain ⟨k, hk, time, hMem, hChooses, hRecovers⟩ := h.exists_recovers hρ hMeets
  have hFollows := h.follows hρ
  have hPinned : ρ ∈ pinned := h.tracks.valid.pinned hρ
  obtain ⟨⟨time', flip⟩, hFlip, rfl⟩ := List.mem_map.mp hMem
  have hFindFlip : (r.flips.find? fun y =>
      Model.isTrue ⟨modelLits ρ (r.interest location)⟩ y.2) = some (time', flip) :=
    find?_of_picks h.tracks.distinct (fun y hy => h.isTrue_eq hρ (.inr (by
      simp only [Runs.interest, List.mem_append]
      exact .inl (.inl (.inr (List.mem_map_of_mem hy)))))) hChooses.time hFlip
  obtain ⟨chosen, hRead, hSelectors, hChosen⟩ := h.tracks.fits.read_eq
    (m := ⟨modelLits ρ (r.interest location)⟩)
    (fun l hl => h.isTrue_eq hρ (.inr (by
      simp only [Runs.interest, List.mem_append]
      exact .inl (.inl (.inl hl))))) hk hChooses.latch
  have hAlarms := h.findIdx?_alarms hρ hChooses
  have hAdmits : (s.take (r.time + 1)).Admits (r.values ρ) := by
    change AdmitsSteps (s.steps.take (r.time + 1)) _
    rw [h.time, hSteps]
    exact hFollows.admits
  have hValue : ∀ ls ∈ r.inputs, ∀ l ∈ ls,
      Model.value ⟨modelLits ρ (r.interest location)⟩ l = some (l.holds ρ) := fun ls hls l hl =>
    value_modelLits hPinned ((h.tracks.known ls hls l hl).imp_right fun hOpened =>
      List.mem_map_of_mem (List.mem_append_right _ hOpened))
  have hSettle := Stimulus.steps_settle hAdmits hValue
  obtain ⟨first, hFirst⟩ := hRecovers.exists_first
  have hRaised := hAlarms.trans hFirst
  refine ⟨Clause.negate (flip :: chosen),
    { component := k, flip := time', alarm := first, gone := r.time + 1
      stimulus := (s.take (r.time + 1)).settle r.inputs ⟨modelLits ρ (r.interest location)⟩ },
    ?_, ?_⟩
  · simp only [Runs.read, hFindFlip, hRead, hRaised]
    rfl
  · refine ⟨hChooses, hk, hMem, rfl, ?_, hFirst, ?_, fun ρ' f hf => ?_⟩
    · rw [hSettle]
      exact List.map_map.symm
    · intro l hl
      obtain ⟨l', hl', rfl⟩ := List.mem_map.mp hl
      rw [Lit.var_neg]
      rcases List.mem_cons.mp hl' with rfl | hl'
      · exact h.tracks.flipsBelow _ hFlip
      · exact h.tracks.selectorsBelow l' (hSelectors l' hl')
    · -- the clause is violated by a choice of the same step and the same latch
      have hHolds : flip.holds ρ' = decide (time' = f.time) := hf.time _ hFlip
      have hBoth : Meets ρ' (flip :: chosen) ↔ time' = f.time ∧ f.latch = k.index := by
        rw [Meets, List.forall_mem_cons, hHolds, decide_eq_true_eq]
        exact and_congr_right fun _ => hChosen ρ' f.latch hf.latch
      rw [Clause.mem_models_negate, hBoth, SuperfluousTrace.fault, eq_comm (a := time'), and_comm,
        ← Fault.mk.injEq]

end Read

section Enumerate

variable (h : Grows p M past levels location s found x r)
  (hSteps : s.steps.take (past.length + 1) = past ++ [levels])
  {ys : List (Clause × SuperfluousTrace)}
  (hFound : Enumerates x.assumptions (r.interest location) (r.read location s) (told M x) ys N)
include h hSteps hFound

theorem Grows.exists_reading {y : Clause × SuperfluousTrace} (hy : y ∈ ys) :
    ∃ ρ ∈ told M x, Meets ρ x.assumptions ∧ Reading p location r ρ y.1 y.2 := by
  obtain ⟨ρ, hρ, hMeets, hRead⟩ := hFound.exists_of_mem hy
  obtain ⟨block, t, hEq, hReading⟩ := h.reading hSteps hρ hMeets
  rw [hEq] at hRead
  obtain rfl := Option.some.inj hRead
  exact ⟨ρ, hρ, hMeets, hReading⟩

theorem Grows.nodup_faults : (ys.map fun y => y.2.fault).Nodup := by
  rw [List.Nodup, List.pairwise_map]
  refine hFound.pairwise.imp_of_mem fun {y z} hy _ => ?_
  rintro ⟨ρ, hρ, hMeets, hBlock, hRead⟩ hEq
  obtain ⟨_, _, _, hReading⟩ := h.exists_reading hSteps hFound hy
  obtain ⟨block, t, hRead', hReading'⟩ := h.reading hSteps hρ hMeets
  rw [hRead'] at hRead
  obtain rfl := Option.some.inj hRead
  exact (hReading.blocks ρ _ hReading'.chooses).mp hBlock hEq.symm

/-- What is left are the assignments that choose other faults. -/
theorem Grows.mem_iff {ρ : Assignment} (hρ : ρ ∈ told M x) {f : Fault}
    (hf : Chooses p.circuit location (r.advance p) ρ f) :
    ρ ∈ N ↔ f ∉ ys.map fun y => y.2.fault := by
  rw [hFound.mem_iff, and_iff_right hρ]
  constructor
  · intro hBlocks hMem
    obtain ⟨y, hy, rfl⟩ := List.mem_map.mp hMem
    obtain ⟨_, _, _, hReading⟩ := h.exists_reading hSteps hFound hy
    exact (hReading.blocks ρ _ hf).mp (hBlocks y hy) rfl
  · intro hNot y hy
    obtain ⟨_, _, _, hReading⟩ := h.exists_reading hSteps hFound hy
    exact (hReading.blocks ρ f hf).mpr fun hEq => hNot (List.mem_map.mpr ⟨y, hy, hEq.symm⟩)

/-- The session goes on with the faults that have not been found. -/
theorem Grows.tracks_found :
    Tracks p N (past ++ [levels]) location (x.settled found ++ ys.map fun y => y.2.fault)
      (r.advance p) := by
  have hTold := h.tracks
  have hInter : N = told M x ∩ {ρ | ∀ y ∈ ys, ρ ∈ y.1.models} := Set.ext hFound.mem_iff
  have hModels : (r.advance p).encoder.models N = N := Encoder.models_eq_of_pending h.handed
  refine ⟨hTold.fits, ?_, hTold.selectorsBelow, hTold.flipsBelow, hTold.alarmsBelow,
    hTold.doneBelow, hTold.inputsBelow, hTold.goldenBelow, hTold.faultyBelow,
    hTold.environmentBelow, hTold.known, hTold.time, hTold.times, hTold.distinct, hTold.concrete,
    ?_, ?_, ?_, ?_⟩
  · rw [hInter]
    refine hTold.valid.inter fun ρ hρ ρ' hAgree y hy => ?_
    obtain ⟨_, _, _, hReading⟩ := h.exists_reading hSteps hFound hy
    exact (Clause.mem_models_congr fun l hl => hAgree l.var (hReading.below l hl)).mp (hρ y hy)
  · rw [List.forall_mem_append]
    refine ⟨hTold.earlier, fun f hf => ?_⟩
    obtain ⟨y, hy, rfl⟩ := List.mem_map.mp hf
    obtain ⟨_, _, _, hReading⟩ := h.exists_reading hSteps hFound hy
    obtain ⟨z, hz, hEq⟩ := List.mem_map.mp hReading.flip
    exact (Nat.le_of_eq hEq.symm).trans_lt (hTold.times z hz)
  · exact fun k hk time hTime hNot =>
      (hTold.settled k hk time hTime hNot).imp_left (List.mem_append_left _)
  · intro ρ hρ
    rw [hModels] at hρ
    have hMem := (hFound.mem_iff ρ).mp hρ
    have hFollows := h.follows hMem.1
    refine ⟨hFollows.atMostOne, hFollows.atMostOnce, hFollows.admits, hFollows.golden,
      hFollows.environment, fun f hf => ?_⟩
    obtain ⟨hFaulty, hHarmless, hAlarms, hUnfound⟩ := hFollows.runs f hf
    refine ⟨hFaulty, hHarmless, hAlarms, ?_⟩
    rw [List.mem_append, not_or]
    exact ⟨hUnfound, (h.mem_iff hSteps hFound hMem.1 hf).mp hρ⟩
  · intro k hk time hPending hNot inputs hAdmits hHarmless
    rw [List.mem_append, not_or] at hNot
    obtain ⟨ρ, hρ, hChooses, hValues, hDone⟩ :=
      hTold.complete k hk time hPending hNot.1 inputs hAdmits hHarmless
    rw [h.models_eq] at hρ
    refine ⟨ρ, ?_, hChooses, hValues, hDone⟩
    rw [hModels]
    exact (h.mem_iff hSteps hFound hρ hChooses).mpr hNot.2

/-- A fault that has not been found by the end of the step does not recover in it. -/
theorem Grows.not_recovers {k : Component} (hk : k ∈ location.components) {time : Nat}
    (hNot : ⟨k.index, time⟩ ∉ x.settled found ++ ys.map fun y => y.2.fault)
    {inputs : List (List Bool)} (hAdmits : AdmitsSteps (past ++ [levels]) inputs) :
    ¬ Recovers p ⟨k.index, time⟩ inputs := by
  intro hRecovers
  rw [List.mem_append, not_or] at hNot
  by_cases hPending : Pending r.flips (r.time + 1) time
  · -- a fault that recovers has a model, and the enumeration leaves none
    obtain ⟨ρ, hρ, hChooses, hMeets⟩ :=
      h.reaches k hk time hPending hNot.1 inputs hAdmits hRecovers
    refine hFound.not_meets (fun ρ hρ hMeets => ?_) ρ
      ((h.mem_iff hSteps hFound hρ hChooses).mpr hNot.2) hMeets
    obtain ⟨block, t, hRead, _⟩ := h.reading hSteps hρ hMeets
    rw [hRead]
    exact Option.some_ne_none _
  · obtain ⟨hKeys, hTime⟩ := not_or.mp hPending
    rcases h.tracks.settled k hk time (Nat.lt_of_not_le hTime) hKeys with hMem | hHarm
    · exact hNot.1 hMem
    · exact hHarm inputs hAdmits hRecovers.harmless

theorem Grows.spared (hSpared : Spared p location.components found past) :
    Spared p location.components (x.settled found ++ ys.map fun y => y.2.fault)
      (past ++ [levels]) := by
  intro k hk time hNot n inputs hAdmits
  by_cases hn : n ≤ past.length
  · rw [List.take_append_of_le_length hn] at hAdmits
    refine hSpared k hk time (fun hMem => hNot ?_) n inputs hAdmits
    exact List.mem_append_left _ (List.mem_append_left _ hMem)
  · rw [List.take_of_length_le (by simp; omega)] at hAdmits
    exact h.not_recovers hSteps hFound hk hNot hAdmits

/-- Every trace replays as it says. -/
theorem Grows.replays (hSpared : Spared p location.components found past)
    {y : Clause × SuperfluousTrace} (hy : y ∈ ys) : Replays p s y.2 := by
  obtain ⟨ρ, hρ, hMeets, hReading⟩ := h.exists_reading hSteps hFound hy
  have hFollows := h.follows hρ
  have hRecovers := h.shows ρ hρ hMeets _ hReading.chooses
  have hBools : y.2.stimulus.bools = r.values ρ := by
    rw [Stimulus.bools, hReading.steps, List.map_map]
    exact (List.map_congr_left fun xs _ => Stimulus.map_toBool_map_ofBool xs).trans (List.map_id _)
  have hLength : (r.values ρ).length = past.length + 1 := by
    have hEq := hFollows.admits.length_eq
    rw [List.length_append] at hEq
    exact hEq.symm
  have hGone : y.2.gone = past.length + 1 := by rw [hReading.gone, h.time]
  obtain ⟨hFirst, hRaised, hSilent⟩ := List.findIdx?_eq_some_iff_getElem.mp hReading.alarm
  have hUnfound := (hFollows.runs _ hReading.chooses).unfound
  refine ⟨?_, ?_, ?_, ?_, ?_, ?_, ?_, ?_, ?_⟩
  · exact (hRecovers.harmless.strikes (List.getElem?_eq_getElem hFirst) hRaised).1
  · rwa [Fault.length_replay, hLength, ← hGone] at hFirst
  · rw [Stimulus.length, hReading.steps, List.length_map, hLength, hGone]
  · rw [Stimulus.hasFree, hReading.steps]
    refine Bool.eq_false_iff.mpr fun hAny => ?_
    obtain ⟨vs, hvs, hAny⟩ := List.any_eq_true.mp hAny
    obtain ⟨xs, _, rfl⟩ := List.mem_map.mp hvs
    obtain ⟨v, hv, hFree⟩ := List.any_eq_true.mp hAny
    obtain ⟨b, _, rfl⟩ := List.mem_map.mp hv
    exact Level.ofBool_ne_free b (of_decide_eq_true hFree)
  · rw [hBools, hGone, hSteps]
    exact hFollows.admits
  · rw [hBools]
    exact hRecovers
  · rw [hBools]
    exact ⟨_, List.getElem?_eq_getElem hFirst, hRaised⟩
  · rw [hBools]
    intro i hi o ho
    obtain ⟨hi', rfl⟩ := List.getElem?_eq_some_iff.mp ho
    exact Bool.eq_false_iff.mpr (hSilent i hi)
  · -- had the fault been gone before, it would have been found then
    rw [hBools, hGone]
    intro hReserved i hFlip hi o ho
    refine Bool.eq_false_iff.mpr fun hConverges => ?_
    have hEarly := hRecovers.take hReserved hFlip ho hConverges
    have hAdmits := hFollows.admits.take (i + 1)
    rw [List.take_append_of_le_length (Nat.le_of_lt_succ hi)] at hAdmits
    exact hSpared _ hReading.component y.2.flip
      (fun hMem => hUnfound (List.mem_append_left _ hMem)) (i + 1) _ hAdmits hEarly

end Enumerate

/-- The traces show faults of the latches, each one once, and none that was found before. -/
structure Covers (p : Problem) (s : Stimulus) (ks : List Component) (found : List Fault)
    (ts : List SuperfluousTrace) : Prop where
  shows : ∀ t ∈ ts, Replays p s t ∧ t.component ∈ ks
  nodup : (ts.map SuperfluousTrace.fault).Nodup
  unfound : ∀ t ∈ ts, t.fault ∉ found

namespace Covers

variable {ks : List Component} {ts ts' : List SuperfluousTrace}

theorem nil : Covers p s ks found [] :=
  ⟨List.forall_mem_nil _, List.nodup_nil, List.forall_mem_nil _⟩

theorem append (h : Covers p s ks found ts)
    (h' : Covers p s ks (found ++ ts.map SuperfluousTrace.fault) ts') :
    Covers p s ks found (ts ++ ts') := by
  have hApart : ∀ t ∈ ts', t.fault ∉ found ∧ t.fault ∉ ts.map SuperfluousTrace.fault := by
    intro t ht
    have hNot := h'.unfound t ht
    rwa [List.mem_append, not_or] at hNot
  refine ⟨List.forall_mem_append.mpr ⟨h.shows, h'.shows⟩, ?_,
    List.forall_mem_append.mpr ⟨h.unfound, fun t ht => (hApart t ht).1⟩⟩
  rw [List.map_append, List.nodup_append]
  refine ⟨h.nodup, h'.nodup, fun a ha b hb hEq => ?_⟩
  obtain ⟨t, ht, rfl⟩ := List.mem_map.mp hb
  exact (hApart t ht).2 (hEq ▸ ha)

end Covers

section Enumerate

variable (h : Grows p M past levels location s found x r)
include h

theorem Grows.covers_immediate (hTime : ∀ f ∈ found, f.time < past.length) :
    Covers p s location.components found x.immediate.toList := by
  cases hImmediate : x.immediate with
  | none => exact .nil
  | some t =>
    obtain ⟨hReplays, hComponent, hFlip⟩ := h.immediate t hImmediate
    refine ⟨?_, List.nodup_singleton _, ?_⟩
    · rintro t' ht'
      rw [List.mem_singleton.mp ht']
      exact ⟨hReplays, hComponent⟩
    · intro t' ht' hMem
      rw [List.mem_singleton.mp ht'] at hMem
      exact Nat.ne_of_lt (hTime _ hMem) hFlip

theorem Grows.covers_found (hSteps : s.steps.take (past.length + 1) = past ++ [levels])
    {ys : List (Clause × SuperfluousTrace)}
    (hFound : Enumerates x.assumptions (r.interest location) (r.read location s) (told M x) ys N)
    (hSpared : Spared p location.components found past) :
    Covers p s location.components (x.settled found) (ys.map Prod.snd) := by
  refine ⟨fun t ht => ?_, ?_, fun t ht => ?_⟩
  · obtain ⟨y, hy, rfl⟩ := List.mem_map.mp ht
    obtain ⟨_, _, _, hReading⟩ := h.exists_reading hSteps hFound hy
    exact ⟨h.replays hSteps hFound hSpared hy, hReading.component⟩
  · rw [List.map_map]
    exact h.nodup_faults hSteps hFound
  · obtain ⟨y, hy, rfl⟩ := List.mem_map.mp ht
    obtain ⟨ρ, hρ, _, hReading⟩ := h.exists_reading hSteps hFound hy
    exact ((h.follows hρ).runs _ hReading.chooses).unfound

end Enumerate

section Search

open Deciding ExactProcedure

variable {σ : Type} [DecisionProcedure σ] [ExactProcedure σ] {st st' : σ}
  {stack : List (Set Assignment)} {ts : List SuperfluousTrace} {raised : Option Nat}

/-- The induction is on the steps that are left; the session tracks those before. -/
theorem onSteps_returns {rest : List (List Level)} (hSteps : s.steps = past ++ rest)
    (hWidth : s.width = p.circuit.inputs.length)
    (hFree : p.mode.freeInputs = false → s.hasFree = false)
    (h : Tracks p M past location found r) (hSpared : Spared p location.components found past)
    (hFrames : frames st = M :: stack)
    (hReturns : Returns (onSteps p location s rest r) st (ts, raised) st') :
    Covers p s location.components found ts ∧ (raised = none →
      Spared p location.components (found ++ ts.map SuperfluousTrace.fault) s.steps) := by
  induction rest generalizing past r M st found ts raised with
  | nil =>
    obtain ⟨hEq, rfl⟩ := returns_pure.mp hReturns
    cases hEq
    refine ⟨.nil, fun _ => ?_⟩
    rw [hSteps, List.append_nil, List.map_nil, List.append_nil]
    exact hSpared
  | cons levels rest ih =>
    have hLength : levels.length = p.circuit.inputs.length :=
      (s.width_eq levels (hSteps ▸ by simp)).trans hWidth
    have hTake : s.steps.take (past.length + 1) = past ++ [levels] := by
      rw [hSteps, List.take_append, List.take_of_length_le (Nat.le_succ _)]
      simp
    rw [onSteps] at hReturns
    cases hStep : r.step p location s levels with
    | none =>
      simp only [hStep] at hReturns
      obtain ⟨hEq, rfl⟩ := returns_pure.mp hReturns
      cases hEq
      exact ⟨.nil, fun hNone => by cases hNone⟩
    | some next =>
      obtain ⟨x, r'⟩ := next
      have hGrows := h.step hLength hFree hTake hStep
      simp only [hStep] at hReturns
      obtain ⟨_, st₁, hChecks, hReturns⟩ := returns_bind.mp hReturns
      obtain ⟨_, st₂, hClauses, hReturns⟩ := returns_bind.mp hReturns
      obtain ⟨_, st₃, hAlarm, hReturns⟩ := returns_bind.mp hReturns
      obtain ⟨enumerated, st₄, hEnumerate, hReturns⟩ := returns_bind.mp hReturns
      obtain ⟨⟨more, raised'⟩, st₅, hMore, hReturns⟩ := returns_bind.mp hReturns
      obtain ⟨hEq, rfl⟩ := returns_pure.mp hReturns
      cases hEq
      -- what is handed over before the enumeration
      have hTold : frames st₃ = told M x :: stack := by
        have hFirst := frames_forM_addFolded hFrames h.valid.pinned hChecks
        have hSecond := frames_addCnf hFirst hClauses
        have hThird := frames_addFolded hSecond (Set.inter_subset_left.trans
          (Set.inter_subset_left.trans h.valid.pinned)) hAlarm
        rw [hThird, told, Set.inter_right_comm M, Set.inter_assoc]
      obtain ⟨ys, N, hFound, rfl, hRest⟩ := enumerate_returns hTold hEnumerate
      -- the traces: the one settled at once, those enumerated and those of later steps
      have hImmediate := hGrows.covers_immediate fun f hf => h.time ▸ h.earlier f hf
      have hEnumerated := hGrows.covers_found hTake hFound hSpared
      have hFaults : (ys.map Prod.snd).map SuperfluousTrace.fault = ys.map fun y => y.2.fault :=
        List.map_map
      obtain ⟨hLater, hEnd⟩ := ih (show s.steps = (past ++ [levels]) ++ rest by rw [hSteps]; simp)
        (hGrows.tracks_found hTake hFound) (hGrows.spared hTake hFound hSpared) hRest hMore
      rw [← hFaults] at hLater hEnd
      constructor
      · rw [List.append_assoc]
        exact hImmediate.append (hEnumerated.append hLater)
      · intro hNone
        have hAll := hEnd hNone
        rw [Extension.settled] at hAll
        simpa only [List.map_append, List.append_assoc] using hAll

end Search

end SoftError.Superfluous

import SoftError.Proofs.Fault.Injection
import SoftError.Proofs.Fault.Recovery
import SoftError.Proofs.Vulnerability.OneShotNames
import SoftError.Proofs.Vulnerability.Traces

/-!
# A step of the one-shot search

A model of the unrolled formula chooses a step of the flip and inputs. Its golden run is that of
the circuit, and its faulty run that of the chosen fault: each copy of the transition relation
evaluates the gates of one more step. The check of a step holds in the models in which an output
is wrong there.
-/

namespace SoftError.Vulnerability.OneShot

variable (c : Circuit)

theorem step_eq (t : Transition) (k : Component) (levels : List Level) (r : Runs) :
    r.step c t k levels =
      let ((flip, names, opened), e) := naming c t k.index levels r.state r.encoder
      (do
        let copy ← names.copy t.relation
        let inputLits := t.inputs.map names.lit
        let (golden, e) := (r.golden.setInputs c inputLits).step c e
        let (difference, e) := (e.keepLow (golden.alarm c)).differs (golden.observed c)
          (t.outputs.map names.lit)
        let unrolled := r.unrolled ++ copy ++ e.take.1 ++ (Clause.fold [-names.lit t.alarm]).toList
          ++ r.flips.map fun earlier => [-flip, -earlier]
        return (unrolled ++ (Clause.fold difference).toList, names,
          { r with
            encoder := e.take.2, unrolled, golden, flips := r.flips ++ [flip]
            opened := r.opened ++ opened, inputs := r.inputs ++ [inputLits] })) := rfl

/-- The values of the inputs. -/
def Runs.values (r : Runs) (ρ : Assignment) : List (List Bool) :=
  r.inputs.map fun ls => ls.map (Lit.holds ρ)

/-- The runs after a step. -/
def Runs.extended (r : Runs) (flip : Lit) (n : Names) (opened : List Lit) (copy : Cnf)
    (alarm : Signal) (golden : Unrolling) (e : Encoder) : Runs :=
  { r with
    encoder := e.take.2
    unrolled := r.unrolled ++ copy ++ e.take.1 ++ (Clause.fold [-n.lit alarm.lit]).toList
      ++ r.flips.map fun earlier => [-flip, -earlier]
    golden
    flips := r.flips ++ [flip]
    opened := r.opened ++ opened
    inputs := r.inputs ++ [inputLits c n] }

variable {c} {t : Transition}

theorem Runs.values_advance (r : Runs) (n : Names) (concrete : Option (Table Bool))
    (ρ : Assignment) : (r.advance c t n concrete).values ρ = r.values ρ := rfl

theorem step_eq_ok (ht : Transition.ofCircuit c = .ok t) {k : Component} {levels : List Level}
    {r : Runs} {flip : Lit} {n : Names} {opened : List Lit} {e₁ e₂ e₃ : Encoder} {copy : Cnf}
    {alarm : Signal} {golden : Unrolling} {difference : Clause}
    (hNaming : naming c t k.index levels r.state r.encoder = ((flip, n, opened), e₁))
    (hCopy : n.copy (c.gates.flatMap Transition.ofGate) = .ok copy) (hAlarm : c.alarm? = some alarm)
    (hGolden : (r.golden.setInputs c (inputLits c n)).step c e₁ = (golden, e₂))
    (hDiffers : (e₂.keepLow (golden.alarm c)).differs (golden.observed c)
      (c.observed.map fun s => n.lit s.lit) = (difference, e₃)) :
    r.step c t k levels =
      .ok ((r.extended c flip n opened copy alarm golden e₃).unrolled ++
        (Clause.fold difference).toList, n, r.extended c flip n opened copy alarm golden e₃) := by
  obtain ⟨alarm', hAlarm', hRelation, hInputs, hOutputs, hLit, _, _⟩ :=
    Transition.ofCircuit_eq_ok ht
  obtain rfl : alarm = alarm' := Option.some.inj (hAlarm.symm.trans hAlarm')
  have hLits : (c.inputs.map Signal.lit).map n.lit = inputLits c n := List.map_map
  have hObserved : (c.observed.map Signal.lit).map n.lit = c.observed.map fun s => n.lit s.lit :=
    List.map_map
  simp only [step_eq, hNaming, hRelation, hInputs, hOutputs, hLit, hCopy, hLits, hObserved, hGolden,
    hDiffers]
  rfl

/-- The literals of the runs at the start of a step have the values of concrete tables. -/
structure Runs.Starts (c : Circuit) (r : Runs) (ρ : Assignment)
    (tables : Table Bool × Table Bool) : Prop where
  golden : r.golden.table.Values (Lit.holds ρ) tables.1
  state : r.state.map (Lit.holds ρ) = tables.2.state c
  zero : tables.2.get 0 = false

theorem Runs.Starts.congr {r : Runs} {ρ ρ' : Assignment} {tables : Table Bool × Table Bool}
    (h : r.Starts c ρ tables) {n : Nat} (hAgree : AgreeBelow n ρ ρ')
    (hGolden : r.golden.table.Below n) (hState : ∀ l ∈ r.state, l.var < n) :
    r.Starts c ρ' tables :=
  ⟨hGolden.values_congr hAgree h.golden, (hAgree.map_holds hState).symm.trans h.state, h.zero⟩

/-- The literals of a step have the values of an observation. -/
structure Renders (c : Circuit) (ρ : Assignment) (golden : Unrolling) (n : Names)
    (o : Observation) : Prop where
  golden : golden.table.Values (Lit.holds ρ) o.golden
  faulty : ∀ s ∈ c.uses, (n.lit s.lit).holds ρ = o.faulty.read s

namespace Renders

variable {ρ : Assignment} {golden : Unrolling} {n : Names} {o : Observation}

theorem golden_alarm (h : Renders c ρ golden n o) (hρ : ρ ∈ pinned) :
    (golden.alarm c).holds ρ = o.golden.alarm c :=
  h.golden.alarm (evaluation_holds hρ) c

theorem faulty_alarm (h : Renders c ρ golden n o) {alarm : Signal}
    (hAlarm : c.alarm? = some alarm) : (n.lit alarm.lit).holds ρ = o.faulty.alarm c := by
  rw [h.faulty _ (c.alarm_mem_uses hAlarm), Table.alarm, hAlarm]
  rfl

theorem agrees_iff (h : Renders c ρ golden n o) (hρ : ρ ∈ pinned) :
    (golden.observed c).map (Lit.holds ρ) =
      (c.observed.map fun s => n.lit s.lit).map (Lit.holds ρ) ↔ o.agrees c = true := by
  have hGolden : (golden.observed c).map (Lit.holds ρ) = o.golden.observed c :=
    h.golden.observed (evaluation_holds hρ) c
  have hFaulty : (c.observed.map fun s => n.lit s.lit).map (Lit.holds ρ) =
      o.faulty.observed c := by
    rw [List.map_map]
    exact List.map_congr_left fun s hs => h.faulty s (c.observed_subset_uses hs)
  rw [hGolden, hFaulty, Observation.agrees, decide_eq_true_eq]

end Renders

/-- The parts of a step, each as specified. -/
structure Stages (c : Circuit) (k : Component) (levels : List Level) (r : Runs) (flip : Lit)
    (n : Names) (opened : List Lit) (e₁ : Encoder) (copy : Cnf) (alarm : Signal)
    (golden : Unrolling) (e₂ : Encoder) (difference : Clause) (e₃ : Encoder) : Prop where
  flipsBelow : ∀ l ∈ r.flips, l.var < r.encoder.nextVar
  stateBelow : ∀ l ∈ r.state, l.var < r.encoder.nextVar
  goldenBelow : r.golden.table.Below r.encoder.nextVar
  naming : Naming c r.unrolled.models k.index levels r.state r.encoder flip n opened e₁
  copied : n.copy (c.gates.flatMap Transition.ofGate) = .ok copy
  alarm : c.alarm? = some alarm
  performs : Unrolling.Performs r.unrolled.models e₁
    (r.golden.setInputs c (inputLits c n)).table (golden.table, e₂) fun _ t => t.settle c
  tells : Encoder.Tells r.unrolled.models (e₂.keepLow (golden.alarm c)) [] (golden.observed c)
    (c.observed.map fun s => n.lit s.lit) (difference, e₃)

namespace Stages

variable {k : Component} {levels : List Level} {r : Runs} {flip : Lit} {n : Names}
  {opened : List Lit} {e₁ e₂ e₃ : Encoder} {copy : Cnf} {alarm : Signal} {golden : Unrolling}
  {difference : Clause} {ρ : Assignment}
  (h : Stages c k levels r flip n opened e₁ copy alarm golden e₂ difference e₃)
include h

theorem le_performs : e₂.nextVar ≤ e₃.nextVar :=
  (Encoder.nextVar_keepLow _ e₂).symm.trans_le h.tells.le

theorem le_naming : e₁.nextVar ≤ e₃.nextVar := h.performs.le.trans h.le_performs

theorem le : r.encoder.nextVar ≤ e₃.nextVar := h.naming.le.trans h.le_naming

theorem copy_below : copy.Below e₁.nextVar := by
  refine Names.copy_below (fun l hl => ?_) h.copied
  obtain ⟨x, hx, hVar⟩ := Transition.var_of_mem_relation hl
  rw [hVar]
  exact h.naming.below x hx

omit h in
theorem mem_models (hPinned : r.unrolled.models ⊆ pinned) :
    ρ ∈ (r.extended c flip n opened copy alarm golden e₃).unrolled.models ↔
      ρ ∈ e₃.models r.unrolled.models ∧ ρ ∈ copy.models ∧ (n.lit alarm.lit).holds ρ = false ∧
        ∀ l ∈ r.flips, ¬ (flip.holds ρ = true ∧ l.holds ρ = true) := by
  simp only [Runs.extended, Cnf.mem_models_append, Encoder.models, Set.mem_inter_iff]
  constructor
  · rintro ⟨⟨⟨⟨hM, hCopy⟩, hClauses⟩, hAlarm⟩, hExclusive⟩
    rw [Cnf.mem_models_fold (hPinned hM), Clause.mem_models] at hAlarm
    exact ⟨⟨hM, hClauses⟩, hCopy, by simpa using hAlarm,
      OneHot.mem_models_exclude.mp hExclusive⟩
  · rintro ⟨⟨hM, hClauses⟩, hCopy, hAlarm, hExclusive⟩
    refine ⟨⟨⟨⟨hM, hCopy⟩, hClauses⟩, ?_⟩, OneHot.mem_models_exclude.mpr hExclusive⟩
    rw [Cnf.mem_models_fold (hPinned hM), Clause.mem_models]
    simpa using hAlarm

theorem alarm_below : (n.lit alarm.lit).var < e₁.nextVar :=
  h.naming.lit_below (c.mem_named_of_uses (c.alarm_mem_uses h.alarm))

theorem valid :
    (r.extended c flip n opened copy alarm golden e₃).encoder.Valid
      (r.extended c flip n opened copy alarm golden e₃).unrolled.models := by
  have hInter := h.tells.valid.take.inter (X := {ρ | ρ ∈ copy.models ∧
    (n.lit alarm.lit).holds ρ = false ∧
      ∀ l ∈ r.flips, ¬ (flip.holds ρ = true ∧ l.holds ρ = true)}) ?_
  · have hEq : (r.extended c flip n opened copy alarm golden e₃).unrolled.models = _ :=
      Set.ext fun ρ => mem_models h.tells.valid.pinned
    rw [hEq]
    exact hInter
  · rintro ρ ⟨hCopy, hAlarm, hExclusive⟩ ρ' hAgree
    have hOld : ∀ {v}, v < e₁.nextVar → v < e₃.take.2.nextVar :=
      fun hv => lt_of_lt_of_le hv h.le_naming
    refine ⟨h.copy_below.models (hAgree.mono h.le_naming) hCopy, ?_, fun l hl => ?_⟩
    · rwa [← hAgree.holds (hOld h.alarm_below)]
    · rw [← hAgree.holds (hOld h.naming.flipBelow),
        ← hAgree.holds (lt_of_lt_of_le (h.flipsBelow l hl) h.le)]
      exact hExclusive l hl

theorem map_holds_inputLits (hρ : ρ ∈ pinned) :
    (inputLits c n).map (Lit.holds ρ) = c.inputs.map fun s => n.pull ρ (s.var + 1) := by
  rw [inputLits, List.map_map]
  refine List.map_congr_left fun s hs => ?_
  have hNamed := c.mem_named_of_inputs hs
  exact (Names.holds_lit hρ (h.naming.target_ne_zero hNamed)).trans
    (Signal.holds_lit_of_plain (c.input_plain hs) _)

theorem mem_copy_iff : ρ ∈ copy.models ↔
    n.pull ρ ∈ Cnf.models (c.gates.flatMap Transition.ofGate) :=
  h.naming.proper.mem_models_copy (fun _ => Transition.var_mem_of_mem_relation) h.copied

section Faulty

variable (hMem : ρ ∈ e₁.models r.unrolled.models) {f : Fault} (hLatch : f.latch = k.index)
  (hFlip : flip.holds ρ = decide (r.flips.length = f.time)) {tables : Table Bool × Table Bool}
  (hStarts : r.Starts c ρ tables)
include hMem hLatch hFlip hStarts

/-- The names of a step have the values with which the faulty run starts it. -/
theorem pull_eq_get {x : Nat} (hx : x ∈ c.named) (hGate : x ∉ c.gates.map Gate.var) :
    n.pull ρ (x + 1) = ((f.strike c r.flips.length tables.2).setInputs c
      ((inputLits c n).map (Lit.holds ρ))).get x := by
  have hPinned := h.naming.valid.mem_pinned hMem
  rcases c.mem_named_iff.mp hx with rfl | hInput | hLatches | hGates
  · rw [Table.setInputs, Table.get_setAll_of_notMem c.zero_notMem_inputs,
      Table.get_strike_of_notMem c.zero_notMem_latches, hStarts.zero, h.naming.constant]
    exact hPinned
  · obtain ⟨s, hs, rfl⟩ := List.mem_map.mp hInput
    have hValues := h.map_holds_inputLits hPinned
    have hLength : ((inputLits c n).map (Lit.holds ρ)).length = c.inputs.length := by
      simp [inputLits]
    have hSet := Table.map_get_setAll c.inputs_nodup (f.strike c r.flips.length tables.2) hLength
    exact (List.map_inj_left.mp (hSet.trans hValues) s hs).symm
  · obtain ⟨l, hl, rfl⟩ := List.mem_map.mp hLatches
    have hStruck : c.latches.map (fun l => n.pull ρ (l.signal.var + 1)) =
        c.latches.map fun l => (f.strike c r.flips.length tables.2).get l.signal.var := by
      rw [h.naming.state ρ hMem, hStarts.state, ← Table.state_eq, Table.state_strike, hLatch, hFlip]
    rw [Table.setInputs, Table.get_setAll_of_notMem (c.latch_notMem_inputs hl)]
    exact List.map_inj_left.mp hStruck l hl
  · exact absurd hGates hGate

theorem holds_lit_eq_read (hCopy : ρ ∈ copy.models) {s : Signal} (hs : s ∈ c.uses) :
    (n.lit s.lit).holds ρ = ((f.strike c r.flips.length tables.2).step c
      ((inputLits c n).map (Lit.holds ρ))).read s := by
  have hTarget := h.naming.target_ne_zero (c.mem_named_of_uses hs)
  rw [Names.holds_lit (h.naming.valid.mem_pinned hMem) hTarget]
  exact Transition.holds_eq_read_settle (h.mem_copy_iff.mp hCopy)
    (fun x hx hGate => h.pull_eq_get hMem hLatch hFlip hStarts hx hGate) hs

/-- The copy holds if the names of gates have the values of the evaluated gates. -/
theorem mem_copy (hGates : ∀ x ∈ c.gates.map Gate.var, n.pull ρ (x + 1) =
      ((f.strike c r.flips.length tables.2).step c ((inputLits c n).map (Lit.holds ρ))).get x) :
    ρ ∈ copy.models := by
  refine h.mem_copy_iff.mpr (Transition.mem_models_of_settle (t := (f.strike c r.flips.length
    tables.2).setInputs c ((inputLits c n).map (Lit.holds ρ))) fun x hx => ?_)
  by_cases hGate : x ∈ c.gates.map Gate.var
  · exact hGates x hGate
  · rw [h.pull_eq_get hMem hLatch hFlip hStarts hx hGate]
    exact (Table.get_step_of_notMem hGate _ _).symm

end Faulty

theorem renders (hMem : ρ ∈ e₂.models r.unrolled.models) (hCopy : ρ ∈ copy.models) {f : Fault}
    (hLatch : f.latch = k.index) (hFlip : flip.holds ρ = decide (r.flips.length = f.time))
    {tables : Table Bool × Table Bool} (hStarts : r.Starts c ρ tables) :
    Renders c ρ golden n
      (f.observe c r.flips.length tables ((inputLits c n).map (Lit.holds ρ))) :=
  ⟨h.performs.values ρ hMem _ (hStarts.golden.setAll c.inputs (inputLits c n)), fun _ hs =>
    h.holds_lit_eq_read (h.performs.subset hMem) hLatch hFlip hStarts hCopy hs⟩

/-- A model of the extended formula shows what the replay of its fault shows. -/
theorem sound (hρ : ρ ∈ (r.extended c flip n opened copy alarm golden e₃).unrolled.models)
    {f : Fault} (hLatch : f.latch = k.index)
    (hFlip : flip.holds ρ = decide (r.flips.length = f.time)) {tables : Table Bool × Table Bool}
    (hStarts : r.Starts c ρ tables) {o : Observation}
    (ho : o = f.observe c r.flips.length tables ((inputLits c n).map (Lit.holds ρ))) :
    Renders c ρ golden n o ∧ Unseen c (golden.alarm c) o ∧
      (ρ ∈ difference.models ↔ o.agrees c = false) := by
  obtain ⟨hMem, hCopy, hAlarm, _⟩ := (mem_models h.tells.valid.pinned).mp hρ
  have hPinned := h.tells.valid.mem_pinned hMem
  obtain ⟨hGolden, hLow⟩ := Encoder.mem_models_keepLow.mp (h.tells.subset hMem)
  have hRenders := h.renders hGolden hCopy hLatch hFlip hStarts
  rw [← ho] at hRenders
  refine ⟨hRenders, ⟨?_, fun hConstant => ?_⟩, ?_⟩
  · exact (hRenders.faulty_alarm h.alarm).symm.trans hAlarm
  · exact (hRenders.golden_alarm hPinned).symm.trans (hLow hConstant)
  · have hTells := h.tells.models ρ hMem
    have hEmpty : ρ ∉ Clause.models [] := by simp [Clause.mem_models]
    rw [or_iff_right hEmpty] at hTells
    rw [hTells, ← Bool.not_eq_true, ← hRenders.agrees_iff hPinned]

/-- Every way to go on with a fault that shows no alarm is that of a model. -/
theorem lift (hρ : ρ ∈ r.encoder.models r.unrolled.models) {f : Fault} (hLatch : f.latch = k.index)
    (hEarlier : r.flips.length = f.time → ∀ l ∈ r.flips, l.holds ρ = false)
    {tables : Table Bool × Table Bool} (hStarts : r.Starts c ρ tables) {xs : List Bool}
    (hAdmits : List.Forall₂ Level.Admits levels xs) (hLevels : levels.length = c.inputs.length)
    (hUnseen : Unseen c (golden.alarm c) (f.observe c r.flips.length tables xs)) :
    ∃ ρ' ∈ (r.extended c flip n opened copy alarm golden e₃).unrolled.models,
      AgreeBelow r.encoder.nextVar ρ ρ' ∧ (inputLits c n).map (Lit.holds ρ') = xs ∧
      flip.holds ρ' = decide (r.flips.length = f.time) := by
  have hCount : xs.length = c.inputs.length := hAdmits.length_eq.symm.trans hLevels
  have hInputs : c.inputs.map (fun s =>
      ((f.strike c r.flips.length tables.2).step c xs).get s.var) = xs := by
    refine Eq.trans (List.map_congr_left fun s hs => ?_)
      (Table.map_get_setAll c.inputs_nodup (f.strike c r.flips.length tables.2) hCount)
    exact Table.get_step_of_notMem (c.input_notMem_gates hs) _ _
  obtain ⟨ρ₁, hρ₁, hAgree₁, hFlip₁, hPull⟩ := h.naming.exists_mem ρ hρ
    (decide (r.flips.length = f.time)) _ (hInputs.symm ▸ hAdmits)
  have hLits₁ : (inputLits c n).map (Lit.holds ρ₁) = xs := by
    rw [h.map_holds_inputLits (h.naming.valid.mem_pinned hρ₁), ← hInputs]
    exact List.map_congr_left fun s hs =>
      hPull _ (List.mem_append_left _ (List.mem_map_of_mem hs))
  have hCopy₁ : ρ₁ ∈ copy.models := by
    refine h.mem_copy hρ₁ hLatch hFlip₁ (hStarts.congr hAgree₁ h.goldenBelow h.stateBelow) ?_
    rw [hLits₁]
    exact fun x hx => hPull x (List.mem_append_right _ hx)
  obtain ⟨ρ₂, hρ₂, hAgree₂⟩ := h.performs.lift ρ₁ hρ₁
  -- What the names say is settled below the bound of `e₁`, and later steps leave it alone.
  have hRenders : ∀ {ρ'}, ρ' ∈ e₂.models r.unrolled.models → AgreeBelow e₁.nextVar ρ₁ ρ' →
      Renders c ρ' golden n (f.observe c r.flips.length tables xs) := by
    intro ρ' hρ' hAgree
    have hRender := h.renders hρ' (h.copy_below.models hAgree hCopy₁) hLatch
      ((hAgree.holds h.naming.flipBelow).symm.trans hFlip₁)
      (hStarts.congr (hAgree₁.trans (hAgree.mono h.naming.le)) h.goldenBelow h.stateBelow)
    rwa [← hAgree.map_holds h.naming.inputsBelow, hLits₁] at hRender
  have hLow : ρ₂ ∈ (e₂.keepLow (golden.alarm c)).models r.unrolled.models := by
    refine Encoder.mem_models_keepLow.mpr ⟨hρ₂, fun hConstant => ?_⟩
    have hPinned := h.performs.valid.mem_pinned hρ₂
    exact ((hRenders hρ₂ hAgree₂).golden_alarm hPinned).trans (hUnseen.2 hConstant)
  obtain ⟨ρ₃, hρ₃, hAgree₃⟩ := h.tells.lift ρ₂ hLow
  rw [Encoder.nextVar_keepLow] at hAgree₃
  have hNames := hAgree₂.trans (hAgree₃.mono h.performs.le)
  have hAgree := hAgree₁.trans (hNames.mono h.naming.le)
  have hFlip : flip.holds ρ₃ = decide (r.flips.length = f.time) :=
    (hNames.holds h.naming.flipBelow).symm.trans hFlip₁
  have hCopy := h.copy_below.models hNames hCopy₁
  refine ⟨ρ₃, (mem_models h.tells.valid.pinned).mpr ⟨hρ₃, hCopy, ?_, ?_⟩, hAgree, ?_, hFlip⟩
  · have hGolden := (Encoder.mem_models_keepLow.mp (h.tells.subset hρ₃)).1
    exact ((hRenders hGolden hNames).faulty_alarm h.alarm).trans hUnseen.1
  · rintro l hl ⟨hTrue, hOther⟩
    rw [hFlip, decide_eq_true_eq] at hTrue
    rw [← hAgree.holds (h.flipsBelow l hl), hEarlier hTrue l hl] at hOther
    cases hOther
  · rw [← hNames.map_holds h.naming.inputsBelow, hLits₁]

end Stages

end SoftError.Vulnerability.OneShot

import SoftError.Proofs.Decision.Session
import SoftError.Proofs.Fault.Injection
import SoftError.Proofs.Vulnerability.Errors

/-!
# A step of the incremental search

The session stands for the faults that may still be found: its models choose a latch, a step
and inputs, and under each of them the symbolic runs are those of the chosen fault. One more
step keeps this up, and the models that do not switch off its check are those in which an
output is wrong.
-/

namespace SoftError.Vulnerability.Incremental

variable (c : Circuit)

/-- The next step of the faulty run, in which a fault may strike. -/
def faultyStage (remaining : List Candidate) (flips inputs : List Lit) (u : Unrolling)
    (e : Encoder) : Lit × Unrolling × Encoder :=
  let (flip, e) := e.fresh
  let (u, e) := inject c flip remaining (u.setInputs c inputs) e
  (flip, u.step c (e.add (flips.map fun earlier => [-flip, -earlier])))

theorem step_eq (remaining : List Candidate) (levels : List Level) (r : Runs) :
    r.step c remaining levels =
      let (golden, e) := Unrolling.drive c (r.golden, r.encoder) levels
      let (flip, faulty, e) := faultyStage c remaining r.flips (golden.inputs c) r.faulty
        (e.keepLow (golden.alarm c))
      let (difference, e) := (e.add [[-faulty.alarm c]]).differs (golden.observed c)
        (faulty.observed c)
      let (off, e) := e.fresh
      (⟨e.take.1, difference ++ [off], off⟩,
       { encoder := e.take.2, golden, faulty, flips := r.flips ++ [flip], done := r.done
         inputs := r.inputs ++ [golden.inputs c] }) := rfl

theorem strikes_faultyStage {c} {M : Set Assignment} {e : Encoder} {u : Unrolling}
    {remaining : List Candidate} {flips inputs : List Lit} (h : e.Valid M)
    (hu : u.table.Below e.nextVar) (hInputs : ∀ l ∈ inputs, l.var < e.nextVar)
    (hFlips : ∀ l ∈ flips, l.var < e.nextVar) (hSelectors : ∀ k ∈ remaining, k.2.var < e.nextVar)
    (hCandidates : Candidates c remaining) :
    Unrolling.Strikes c M e (u.setInputs c inputs).table flips
      (faultyStage c remaining flips inputs u e).1
      ((faultyStage c remaining flips inputs u e).2.1.table,
        (faultyStage c remaining flips inputs u e).2.2)
      fun ρ t => remaining.foldl (fun t k => if k.2.holds ρ &&
        (faultyStage c remaining flips inputs u e).1.holds ρ then t.flip c k.1.index else t) t := by
  have hBelow : (u.setInputs c inputs).table.Below e.fresh.2.nextVar :=
    (hu.setAll c.inputs hInputs).mono (Nat.le_succ _)
  have hInject := Unrolling.performs_inject h.fresh hBelow
    (e.var_fresh.trans_lt (Nat.lt_succ_self _)) (fun k hk => Nat.lt_succ_of_lt (hSelectors k hk)) hCandidates.latch
  exact hInject.strikes h hFlips

/-- The parts of a step, each as specified. -/
structure Stages (M : Set Assignment) (remaining : List Candidate) (levels : List Level) (r : Runs)
    (golden : Unrolling) (e₁ : Encoder) (flip : Lit) (faulty : Unrolling) (e₂ : Encoder)
    (difference : Clause) (e₃ : Encoder) : Prop where
  candidates : Candidates c remaining
  selectorsBelow : ∀ k ∈ remaining, k.2.var < r.encoder.nextVar
  flipsBelow : ∀ l ∈ r.flips, l.var < r.encoder.nextVar
  goldenBelow : r.golden.table.Below r.encoder.nextVar
  faultyBelow : r.faulty.table.Below r.encoder.nextVar
  drives : Unrolling.Drives c M r.golden r.encoder levels (golden, e₁)
  strikes : Unrolling.Strikes c M (e₁.keepLow (golden.alarm c))
    (r.faulty.setInputs c (golden.inputs c)).table r.flips flip (faulty.table, e₂) fun ρ t =>
      remaining.foldl (fun t k => if k.2.holds ρ && flip.holds ρ then t.flip c k.1.index else t) t
  tells : Encoder.Tells M (e₂.add [[-faulty.alarm c]]) [] (golden.observed c) (faulty.observed c)
    (difference, e₃)

namespace Stages

variable {c} {M : Set Assignment} {remaining : List Candidate} {levels : List Level} {r : Runs}
  {golden faulty : Unrolling} {e₁ e₂ e₃ : Encoder} {flip : Lit} {difference : Clause}
  (h : Stages c M remaining levels r golden e₁ flip faulty e₂ difference e₃)
include h

theorem le_strikes : e₁.nextVar ≤ e₂.nextVar :=
  (Encoder.nextVar_keepLow _ e₁).symm.trans_le h.strikes.lt.le

theorem le : r.encoder.nextVar ≤ e₃.nextVar :=
  h.drives.le.trans (h.le_strikes.trans h.tells.le)

theorem flipBelow : flip.var < e₃.nextVar := lt_of_lt_of_le h.strikes.flipBelow h.tells.le

theorem inputsBelow : ∀ l ∈ golden.inputs c, l.var < e₃.nextVar := fun l hl =>
  lt_of_lt_of_le (h.drives.bounded.map_read _ l hl) (h.le_strikes.trans h.tells.le)

theorem plain (hNone : r.encoder.cache = none) : e₃.cache = none := by
  refine h.tells.plain (h.strikes.plain ?_)
  rw [Encoder.cache_keepLow]
  exact h.drives.plain hNone

theorem mem_golden {ρ : Assignment} (hρ : ρ ∈ e₂.models M) :
    ρ ∈ e₁.models M ∧ ((golden.alarm c).isConstant = false → (golden.alarm c).holds ρ = false) :=
  Encoder.mem_models_keepLow.mp (h.strikes.subset hρ)

theorem mem_models {ρ : Assignment} (hρ : ρ ∈ e₃.models M) :
    ρ ∈ r.encoder.models M ∧ ρ ∈ e₁.models M ∧ ρ ∈ e₂.models M := by
  have hStrikes := (Encoder.mem_models_addLow.mp (h.tells.subset hρ)).1
  have hDrives := (h.mem_golden hStrikes).1
  exact ⟨h.drives.subset hDrives, hDrives, hStrikes⟩

/-- The step shows what the replay of the fault shows. -/
theorem depicts {ρ : Assignment} (hρ : ρ ∈ e₂.models M) {f : Fault} (hf : Possible c remaining f)
    (hPicks : Picks ρ (selection remaining) f.latch)
    (hFlip : flip.holds ρ = decide (r.flips.length = f.time)) {tables : Table Bool × Table Bool}
    (hGolden : r.golden.table.Values (Lit.holds ρ) tables.1)
    (hFaulty : r.faulty.table.Values (Lit.holds ρ) tables.2) :
    Depicts ρ golden.table faulty.table
      (f.observe c r.flips.length tables ((golden.inputs c).map (Lit.holds ρ))) := by
  refine ⟨h.drives.values ρ (h.mem_golden hρ).1 _ hGolden, ?_⟩
  have hValues := h.strikes.values ρ hρ _ (hFaulty.setAll c.inputs (golden.inputs c))
  rw [foldl_flip_of_picks h.candidates.distinct hPicks hf] at hValues
  exact hValues.congr (Table.get_step_strike f hFlip _ _)

theorem sound {ρ : Assignment} (hρ : ρ ∈ e₃.models M) {f : Fault} (hf : Possible c remaining f)
    (hPicks : Picks ρ (selection remaining) f.latch)
    (hFlip : flip.holds ρ = decide (r.flips.length = f.time)) {tables : Table Bool × Table Bool}
    (hGolden : r.golden.table.Values (Lit.holds ρ) tables.1)
    (hFaulty : r.faulty.table.Values (Lit.holds ρ) tables.2) {o : Observation}
    (ho : o = f.observe c r.flips.length tables ((golden.inputs c).map (Lit.holds ρ))) :
    Depicts ρ golden.table faulty.table o ∧ Unseen c (golden.alarm c) o ∧
      (ρ ∈ difference.models ↔ o.agrees c = false) := by
  have hPinned := h.tells.valid.mem_pinned hρ
  obtain ⟨hStrikes, hAlarm⟩ := Encoder.mem_models_addLow.mp (h.tells.subset hρ)
  have hDepicts := h.depicts hStrikes hf hPicks hFlip hGolden hFaulty
  rw [← ho] at hDepicts
  refine ⟨hDepicts, ⟨?_, fun hConstant => ?_⟩, ?_⟩
  · exact (hDepicts.faulty_alarm hPinned c).symm.trans hAlarm
  · exact (hDepicts.golden_alarm hPinned c).symm.trans ((h.mem_golden hStrikes).2 hConstant)
  · have hTells := h.tells.models ρ hρ
    have hEmpty : ρ ∉ Clause.models [] := by simp [Clause.mem_models]
    rw [or_iff_right hEmpty] at hTells
    rw [hTells, ← Bool.not_eq_true, ← hDepicts.agrees_iff hPinned c]
    rfl

theorem lift {ρ : Assignment} (hρ : ρ ∈ r.encoder.models M) {f : Fault}
    (hf : Possible c remaining f) (hPicks : Picks ρ (selection remaining) f.latch)
    (hEarlier : r.flips.length = f.time → ∀ l ∈ r.flips, l.holds ρ = false)
    {tables : Table Bool × Table Bool}
    (hGolden : r.golden.table.Values (Lit.holds ρ) tables.1)
    (hFaulty : r.faulty.table.Values (Lit.holds ρ) tables.2) {xs : List Bool}
    (hAdmits : List.Forall₂ Level.Admits levels xs)
    (hUnseen : Unseen c (golden.alarm c) (f.observe c r.flips.length tables xs)) :
    ∃ ρ' ∈ e₃.models M, AgreeBelow r.encoder.nextVar ρ ρ' ∧
      (golden.inputs c).map (Lit.holds ρ') = xs ∧
      flip.holds ρ' = decide (r.flips.length = f.time) := by
  obtain ⟨ρ₁, hρ₁, hAgree₁, hInputs₁⟩ := h.drives.lift ρ hρ xs hAdmits
  have hLow : ρ₁ ∈ (e₁.keepLow (golden.alarm c)).models M := by
    refine Encoder.mem_models_keepLow.mpr ⟨hρ₁, fun hConstant => ?_⟩
    have hValues := h.drives.values ρ₁ hρ₁ _ (h.goldenBelow.values_congr hAgree₁ hGolden)
    rw [hInputs₁] at hValues
    have hPinned := h.drives.valid.mem_pinned hρ₁
    exact (hValues.alarm (evaluation_holds hPinned) c).trans (hUnseen.2 hConstant)
  obtain ⟨ρ₂, hρ₂, hAgree₂, hFlip⟩ := h.strikes.lift ρ₁ hLow (decide (r.flips.length = f.time))
    fun hTime l hl => by
      rw [← hAgree₁.holds (h.flipsBelow l hl)]
      exact hEarlier (of_decide_eq_true hTime) l hl
  have hInputsBelow : ∀ l ∈ golden.inputs c, l.var < e₁.nextVar := h.drives.bounded.map_read _
  rw [Encoder.nextVar_keepLow] at hAgree₂
  have hAgree := hAgree₁.trans (hAgree₂.mono h.drives.le)
  have hInputs₂ : (golden.inputs c).map (Lit.holds ρ₂) = xs := by
    rw [← hAgree₂.map_holds hInputsBelow, hInputs₁]
  have hDepicts := h.depicts hρ₂ hf
    (hPicks.congr hAgree (var_lt_of_mem_selection h.selectorsBelow)) hFlip
    (h.goldenBelow.values_congr hAgree hGolden) (h.faultyBelow.values_congr hAgree hFaulty)
  rw [hInputs₂] at hDepicts
  -- the faulty alarm is that of the replay, and this is low
  have hSilent : ρ₂ ∈ (e₂.add [[-faulty.alarm c]]).models M := by
    refine Encoder.mem_models_addLow.mpr ⟨hρ₂, ?_⟩
    exact (hDepicts.faulty_alarm (h.strikes.valid.mem_pinned hρ₂) c).trans hUnseen.1
  obtain ⟨ρ₃, hρ₃, hAgree₃⟩ := h.tells.lift ρ₂ hSilent
  have hLe := h.le_strikes
  refine ⟨ρ₃, hρ₃, hAgree.trans (hAgree₃.mono (h.drives.le.trans hLe)), ?_, ?_⟩
  · rw [← hInputs₂]
    exact (hAgree₃.map_holds fun l hl => lt_of_lt_of_le (hInputsBelow l hl) hLe).symm
  · rw [← hFlip]
    exact (hAgree₃.holds h.strikes.flipBelow).symm

end Stages

/-- The values of the inputs. -/
def Runs.values (r : Runs) (ρ : Assignment) : List (List Bool) :=
  r.inputs.map fun ls => ls.map (Lit.holds ρ)

/-- The runs after a step. -/
def Runs.extended (r : Runs) (golden faulty : Unrolling) (flip : Lit) (e : Encoder) : Runs :=
  { encoder := e.fresh.2.take.2, golden, faulty, flips := r.flips ++ [flip], done := r.done
    inputs := r.inputs ++ [golden.inputs c] }

/-- An assignment chooses a fault and inputs. -/
structure Chooses (ks : List Candidate) (r : Runs) (ρ : Assignment) (f : Fault)
    (inputs : List (List Bool)) : Prop where
  latch : Picks ρ (selection ks) f.latch
  time : Picks ρ (numbered r.flips) f.time
  values : r.values ρ = inputs

/-- An assignment makes the runs those of the fault that it chooses. -/
structure Follows (past : List (List Level)) (all remaining : List Candidate) (r : Runs)
    (ρ : Assignment) : Prop where
  atMostOne : AtMostOne ρ (all.map Prod.snd)
  atMostOnce : AtMostOne ρ r.flips
  admits : AdmitsSteps past (r.values ρ)
  runs : ∀ f inputs, Possible c remaining f → Chooses remaining r ρ f inputs →
    r.golden.table.Values (Lit.holds ρ) (f.run c inputs).1 ∧
      r.faulty.table.Values (Lit.holds ρ) (f.run c inputs).2 ∧ Quiet c past (f.replay c inputs)

/-- The session stands for the faults of the remaining latches that have shown no alarm in the
steps so far. -/
structure Tracks (M : Set Assignment) (past : List (List Level)) (all remaining : List Candidate)
    (r : Runs) : Prop where
  candidates : Candidates c all
  sublist : remaining.Sublist all
  valid : r.encoder.Valid M
  alike : Alike (r.golden.table, r.encoder)
    ((Unrolling.solo c past).1.table, (Unrolling.solo c past).2)
  selectorsBelow : ∀ k ∈ all, k.2.var < r.encoder.nextVar
  flipsBelow : ∀ l ∈ r.flips, l.var < r.encoder.nextVar
  doneBelow : ∀ l ∈ r.done, l.var < r.encoder.nextVar
  inputsBelow : ∀ ls ∈ r.inputs, ∀ l ∈ ls, l.var < r.encoder.nextVar
  goldenBelow : r.golden.table.Below r.encoder.nextVar
  faultyBelow : r.faulty.table.Below r.encoder.nextVar
  known : ∀ ls ∈ r.inputs, ∀ l ∈ ls, l.isConstant = true ∨ l ∈ r.golden.opened
  length : r.flips.length = past.length
  sound : ∀ ρ ∈ r.encoder.models M, Follows c past all remaining r ρ
  complete : ∀ k ∈ remaining, ∀ time inputs, AdmitsSteps past inputs →
    Quiet c past ((⟨k.1.index, time⟩ : Fault).replay c inputs) →
    ∃ ρ ∈ r.encoder.models M, Chooses remaining r ρ ⟨k.1.index, time⟩ inputs ∧ Meets ρ r.done

variable {c} {M : Set Assignment} {past : List (List Level)} {all remaining : List Candidate}
  {r : Runs} {levels : List Level}

theorem Tracks.stages (h : Tracks c M past all remaining r)
    (hLength : levels.length = c.inputs.length) :
    ∃ golden e₁ flip faulty e₂ difference e₃,
      Stages c M remaining levels r golden e₁ flip faulty e₂ difference e₃ ∧
      Unrolling.drive c (r.golden, r.encoder) levels = (golden, e₁) ∧
      r.step c remaining levels =
        (⟨e₃.fresh.2.take.1, difference ++ [e₃.fresh.1], e₃.fresh.1⟩,
          r.extended c golden faulty flip e₃) := by
  obtain ⟨golden, e₁, hDrive⟩ :
      ∃ u e, Unrolling.drive c (r.golden, r.encoder) levels = (u, e) := ⟨_, _, rfl⟩
  have hDrives := Unrolling.drives h.valid h.goldenBelow hLength
  rw [hDrive] at hDrives
  have hLow : (e₁.keepLow (golden.alarm c)).Valid M :=
    hDrives.valid.keepLow (hDrives.bounded.alarm e₁.two_le_nextVar c)
  have hLe : r.encoder.nextVar ≤ (e₁.keepLow (golden.alarm c)).nextVar := by
    rw [Encoder.nextVar_keepLow]
    exact hDrives.le
  have hInputs : ∀ l ∈ golden.inputs c, l.var < (e₁.keepLow (golden.alarm c)).nextVar := by
    rw [Encoder.nextVar_keepLow]
    exact hDrives.bounded.map_read _
  have hSelectors := fun k hk => h.selectorsBelow k (h.sublist.subset hk)
  have hCandidates := h.candidates.sublist h.sublist
  have hStrikes := strikes_faultyStage (c := c) hLow (h.faultyBelow.mono hLe) hInputs
    (fun l hl => lt_of_lt_of_le (h.flipsBelow l hl) hLe)
    (fun k hk => lt_of_lt_of_le (hSelectors k hk) hLe) hCandidates
  obtain ⟨flip, faulty, e₂, hFaulty⟩ : ∃ flip u e, faultyStage c remaining r.flips
      (golden.inputs c) r.faulty (e₁.keepLow (golden.alarm c)) = (flip, u, e) := ⟨_, _, _, rfl⟩
  rw [hFaulty] at hStrikes
  have hSilent : (e₂.add [[-faulty.alarm c]]).Valid M :=
    hStrikes.valid.addLow (hStrikes.bounded.alarm e₂.two_le_nextVar c)
  have hGoldenLits : ∀ l ∈ golden.observed c, l.var < e₂.nextVar :=
    (hDrives.bounded.mono ((Encoder.nextVar_keepLow _ e₁).symm.trans_le
      hStrikes.lt.le)).map_read _
  have hFaultyLits : ∀ l ∈ faulty.observed c, l.var < e₂.nextVar := hStrikes.bounded.map_read _
  have hLengths : (golden.observed c).length = (faulty.observed c).length :=
    (Table.length_observed c _).trans (Table.length_observed c _).symm
  have hTells := hSilent.differs hLengths hGoldenLits hFaultyLits
  obtain ⟨difference, e₃, hDiffers⟩ : ∃ d e, (e₂.add [[-faulty.alarm c]]).differs
      (golden.observed c) (faulty.observed c) = (d, e) := ⟨_, _, rfl⟩
  rw [hDiffers] at hTells
  refine ⟨golden, e₁, flip, faulty, e₂, difference, e₃,
    ⟨hCandidates, hSelectors, h.flipsBelow, h.goldenBelow, h.faultyBelow, hDrives, hStrikes,
      hTells⟩, hDrive, ?_⟩
  simp only [step_eq, hDrive, hFaulty, hDiffers, Runs.extended]

theorem Tracks.unseen_iff (h : Tracks c M past all remaining r) {golden : Unrolling} {e₁ : Encoder}
    (hDrive : Unrolling.drive c (r.golden, r.encoder) levels = (golden, e₁)) {o : Observation} :
    Unseen c ((Unrolling.drive c (Unrolling.solo c past) levels).1.alarm c) o ↔
      Unseen c (golden.alarm c) o := by
  have hAlike := h.alike.drive (c := c) levels
  rw [hDrive] at hAlike
  have hConstant : (golden.alarm c).isConstant =
      ((Unrolling.drive c (Unrolling.solo c past) levels).1.alarm c).isConstant :=
    hAlike.isConstant_alarm
  rw [Unseen, Unseen, hConstant]

/-- Every fault that shows no alarm is chosen by some model, with the check of the step
switched on or off. -/
theorem Tracks.exists_chooses (h : Tracks c M past all remaining r) {golden faulty : Unrolling}
    {e₁ e₂ e₃ : Encoder} {flip : Lit} {difference : Clause}
    (hStages : Stages c M remaining levels r golden e₁ flip faulty e₂ difference e₃)
    (hDrive : Unrolling.drive c (r.golden, r.encoder) levels = (golden, e₁))
    {k : Candidate} (hk : k ∈ remaining) {time : Nat} {inputs : List (List Bool)}
    (hAdmits : AdmitsSteps (past ++ [levels]) inputs)
    (hQuiet : Quiet c (past ++ [levels]) ((⟨k.1.index, time⟩ : Fault).replay c inputs)) (b : Bool) :
    ∃ ρ ∈ e₃.models M,
      Chooses remaining (r.extended c golden faulty flip e₃) ρ ⟨k.1.index, time⟩ inputs ∧
      Meets ρ r.done ∧ e₃.fresh.1.holds ρ = b := by
  obtain ⟨ys, xs, rfl, hPast, hStep⟩ := hAdmits.exists_snoc
  rw [Fault.replay_snoc, quiet_snoc, ← hPast.length_eq, ← h.length] at hQuiet
  obtain ⟨hQuiet, hUnseen⟩ := hQuiet
  obtain ⟨ρ, hρ, hChooses, hDone⟩ := h.complete k hk time ys hPast hQuiet
  have hPossible : Possible c remaining ⟨k.1.index, time⟩ := .inl (List.mem_map_of_mem hk)
  obtain ⟨hGolden, hFaulty, _⟩ := (h.sound ρ hρ).runs _ ys hPossible hChooses
  -- a flip in the new step is one that no earlier step has
  have hEarlier : r.flips.length = time → ∀ l ∈ r.flips, l.holds ρ = false := by
    intro hTime l hl
    obtain ⟨i, hi, rfl⟩ := List.getElem_of_mem hl
    have hValue := picks_numbered_iff.mp hChooses.time i _ (List.getElem?_eq_getElem hi)
    rw [hValue, decide_eq_false]
    exact fun hEq => Nat.ne_of_lt hi (hEq.trans hTime.symm)
  rw [h.unseen_iff hDrive] at hUnseen
  obtain ⟨ρ₁, hρ₁, hAgree₁, hInputs, hFlip⟩ :=
    hStages.lift hρ hPossible hChooses.latch hEarlier hGolden hFaulty hStep hUnseen
  have hAgree₂ := AgreeBelow.update e₃.nextVar ρ₁ b
  have hAgree := hAgree₁.trans (hAgree₂.mono hStages.le)
  refine ⟨_, hStages.tells.valid.update_mem hρ₁ b, ⟨?_, ?_, ?_⟩,
    hAgree.meets h.doneBelow hDone, ?_⟩
  · exact hChooses.latch.congr hAgree (var_lt_of_mem_selection hStages.selectorsBelow)
  · rw [Runs.extended, numbered_snoc, picks_append, picks_singleton]
    refine ⟨hChooses.time.congr hAgree (var_lt_of_mem_numbered h.flipsBelow), ?_⟩
    rw [← hAgree₂.holds hStages.flipBelow]
    exact hFlip
  · rw [← hChooses.values, ← hInputs]
    change (r.inputs ++ [golden.inputs c]).map _ = _
    rw [List.map_append, List.map_singleton, ← hAgree₂.map_holds hStages.inputsBelow]
    congr 1
    exact List.map_congr_left fun ls hls => (hAgree.map_holds (h.inputsBelow ls hls)).symm
  · rw [Encoder.holds_fresh, Function.update_self]

section Step

variable (h : Tracks c M past all remaining r) {golden faulty : Unrolling} {e₁ e₂ e₃ : Encoder}
  {flip : Lit} {difference : Clause}
  (hStages : Stages c M remaining levels r golden e₁ flip faulty e₂ difference e₃)
include h hStages

/-- The last step shows what the replay of the chosen fault shows. -/
theorem Tracks.shows (hDrive : Unrolling.drive c (r.golden, r.encoder) levels = (golden, e₁))
    {ρ : Assignment} (hρ : ρ ∈ e₃.models M) {f : Fault} {inputs : List (List Bool)}
    (hf : Possible c remaining f)
    (hChooses : Chooses remaining (r.extended c golden faulty flip e₃) ρ f inputs) :
    ∃ ys xs, inputs = ys ++ [xs] ∧ Quiet c (past ++ [levels]) (f.replay c inputs) ∧
      Depicts ρ golden.table faulty.table (f.observe c ys.length (f.run c ys) xs) ∧
      (ρ ∈ difference.models ↔ (f.observe c ys.length (f.run c ys) xs).agrees c = false) := by
  have hFollows := h.sound ρ (hStages.mem_models hρ).1
  obtain ⟨hLatch, hTime, hValues⟩ := hChooses
  rw [Runs.extended, numbered_snoc, picks_append, picks_singleton] at hTime
  obtain ⟨hGolden, hFaulty, hQuiet⟩ := hFollows.runs f _ hf ⟨hLatch, hTime.1, rfl⟩
  have hLength : r.flips.length = (r.values ρ).length :=
    h.length.trans hFollows.admits.length_eq
  obtain ⟨hDepicts, hUnseen, hDiffers⟩ :=
    hStages.sound hρ hf hLatch hTime.2 hGolden hFaulty rfl
  rw [hLength] at hDepicts hUnseen hDiffers
  have hInputs : inputs = r.values ρ ++ [(golden.inputs c).map (Lit.holds ρ)] := by
    rw [← hValues]
    exact List.map_append
  refine ⟨_, _, hInputs, ?_, hDepicts, hDiffers⟩
  rw [hInputs, Fault.replay_snoc, quiet_snoc, h.unseen_iff hDrive]
  exact ⟨hQuiet, hUnseen⟩

theorem Tracks.follows (hDrive : Unrolling.drive c (r.golden, r.encoder) levels = (golden, e₁))
    {ρ : Assignment} (hρ : ρ ∈ e₃.models M) (off : Lit) :
    Follows c (past ++ [levels]) all remaining
      ((r.extended c golden faulty flip e₃).advance c off) ρ := by
  obtain ⟨hMem, hMem₁, hMem₂⟩ := hStages.mem_models hρ
  have hPinned := h.valid.mem_pinned hMem
  have hFollows := h.sound ρ hMem
  refine ⟨hFollows.atMostOne, ?_, ?_, ?_⟩
  · change AtMostOne ρ (r.flips ++ [flip])
    rw [AtMostOne, List.pairwise_append]
    refine ⟨hFollows.atMostOnce, List.pairwise_singleton _ _, fun l hl l' hl' => ?_⟩
    rw [List.mem_singleton.mp hl', and_comm]
    exact hStages.strikes.exclusive ρ hMem₂ l hl
  · change AdmitsSteps _ ((r.inputs ++ [golden.inputs c]).map _)
    rw [List.map_append]
    exact hFollows.admits.snoc (hStages.drives.admits ρ hMem₁)
  · intro f inputs hf hChooses
    obtain ⟨ys, xs, rfl, hQuiet, hDepicts, _⟩ := h.shows hStages hDrive hρ hf
      ⟨hChooses.latch, hChooses.time, hChooses.values⟩
    rw [Fault.run_snoc]
    have hev := evaluation_holds hPinned
    exact ⟨hDepicts.golden.advance hev c, hDepicts.faulty.advance hev c, hQuiet⟩

/-- The runs after the step, with the check of its outputs in force. -/
theorem Tracks.extend (hDrive : Unrolling.drive c (r.golden, r.encoder) levels = (golden, e₁)) :
    Tracks c (e₃.models M ∩ Clause.models (difference ++ [e₃.fresh.1])) (past ++ [levels]) all
      remaining ((r.extended c golden faulty flip e₃).advance c e₃.fresh.1) := by
  have hOff : e₃.fresh.1.var < e₃.nextVar + 1 := e₃.var_fresh.trans_lt (Nat.lt_succ_self _)
  have hClause : ∀ l ∈ difference ++ [e₃.fresh.1], l.var < e₃.nextVar + 1 := by
    simp only [List.forall_mem_append, List.forall_mem_singleton]
    exact ⟨fun l hl => Nat.lt_succ_of_lt (hStages.tells.bounded l hl), hOff⟩
  have hOld : ∀ {n : Nat}, n < r.encoder.nextVar → n < e₃.nextVar + 1 :=
    fun hn => lt_of_lt_of_le hn (hStages.le.trans (Nat.le_succ _))
  have hGolden : e₁.nextVar ≤ e₃.nextVar + 1 :=
    (hStages.le_strikes.trans hStages.tells.le).trans (Nat.le_succ _)
  have hFaulty : e₂.nextVar ≤ e₃.nextVar + 1 := hStages.tells.le.trans (Nat.le_succ _)
  refine ⟨h.candidates, h.sublist, ?_, ?_, fun k hk => hOld (h.selectorsBelow k hk), ?_, ?_, ?_,
    (hStages.drives.bounded.mono hGolden).advance c,
    (hStages.strikes.bounded.mono hFaulty).advance c, ?_, ?_, ?_, ?_⟩
  · exact hStages.tells.valid.fresh.take.inter fun ρ hρ ρ' hAgree =>
      (Clause.mem_models_congr fun l hl => hAgree l.var (hClause l hl)).mp hρ
  · have hAlike := h.alike.drive (c := c) levels
    rw [hDrive] at hAlike
    rw [Unrolling.solo_snoc]
    exact (hAlike.mono (d := e₃.fresh.2.take.2) hGolden (hStages.plain h.alike.plain)).advance
  · change ∀ l ∈ r.flips ++ [flip], _
    simp only [List.forall_mem_append, List.forall_mem_singleton]
    exact ⟨fun l hl => hOld (h.flipsBelow l hl), Nat.lt_succ_of_lt hStages.flipBelow⟩
  · change ∀ l ∈ r.done ++ [e₃.fresh.1], _
    simp only [List.forall_mem_append, List.forall_mem_singleton]
    exact ⟨fun l hl => hOld (h.doneBelow l hl), hOff⟩
  · change ∀ ls ∈ r.inputs ++ [golden.inputs c], _
    simp only [List.forall_mem_append, List.forall_mem_singleton]
    exact ⟨fun ls hls l hl => hOld (h.inputsBelow ls hls l hl),
      fun l hl => Nat.lt_succ_of_lt (hStages.inputsBelow l hl)⟩
  · change ∀ ls ∈ r.inputs ++ [golden.inputs c], _
    simp only [List.forall_mem_append, List.forall_mem_singleton]
    exact ⟨fun ls hls l hl => (h.known ls hls l hl).imp_right fun hMem =>
      hStages.drives.opened hMem, hStages.drives.known⟩
  · change (r.flips ++ [flip]).length = _
    rw [List.length_append, List.length_append, h.length]
    rfl
  · rintro ρ ⟨⟨hρ, _⟩, _⟩
    exact h.follows hStages hDrive hρ _
  · intro k hk time inputs hAdmits hQuiet
    obtain ⟨ρ, hρ, hChooses, hDone, hTrue⟩ :=
      h.exists_chooses hStages hDrive hk hAdmits hQuiet true
    have hMem : ρ ∈ e₃.models M ∩ Clause.models (difference ++ [e₃.fresh.1]) :=
      ⟨hρ, Encoder.mem_models_snoc.mpr (.inr hTrue)⟩
    refine ⟨ρ, by rwa [Encoder.models_eq_of_pending rfl],
      ⟨hChooses.latch, hChooses.time, hChooses.values⟩, ?_⟩
    exact meets_append.mpr ⟨hDone, meets_singleton.mpr hTrue⟩

end Step

/-- What has been told at the end of a step. -/
def told (M : Set Assignment) (x : Extension) : Set Assignment :=
  M ∩ Cnf.models x.clauses ∩ Clause.models x.difference

variable (c) in
/-- A step that is encoded, handed over and moved on from. -/
structure Grows (M : Set Assignment) (past : List (List Level)) (levels : List Level)
    (all remaining : List Candidate) (r : Runs) (x : Extension) (r' : Runs) : Prop where
  tracks : Tracks c (told M x) (past ++ [levels]) all remaining (r'.advance c x.off)
  handed : r'.encoder.pending = #[]
  wrong : ∀ ρ ∈ told M x, x.off.holds ρ = false → ∀ f inputs, Possible c remaining f →
    Chooses remaining r' ρ f inputs → Errs c (past ++ [levels]) f inputs
  found : ∀ k ∈ remaining, ∀ time inputs, AdmitsSteps (past ++ [levels]) inputs →
    Errs c (past ++ [levels]) ⟨k.1.index, time⟩ inputs →
    ∃ ρ ∈ told M x, Chooses remaining r' ρ ⟨k.1.index, time⟩ inputs ∧ Meets ρ (r'.done ++ [-x.off])

theorem Tracks.step (h : Tracks c M past all remaining r)
    (hLength : levels.length = c.inputs.length) :
    Grows c M past levels all remaining r (r.step c remaining levels).1
      (r.step c remaining levels).2 := by
  obtain ⟨golden, e₁, flip, faulty, e₂, difference, e₃, hStages, hDrive, hEq⟩ := h.stages hLength
  rw [hEq]
  refine ⟨h.extend hStages hDrive, rfl, ?_, ?_⟩
  · rintro ρ ⟨hρ, hClause⟩ hOff f inputs hf hChooses
    obtain ⟨ys, xs, rfl, hQuiet, _, hDiffers⟩ := h.shows hStages hDrive hρ hf hChooses
    rw [Fault.replay_snoc, quiet_snoc] at hQuiet
    have hDifference : ρ ∈ difference.models := by
      refine (Encoder.mem_models_snoc.mp hClause).resolve_right fun hTrue => ?_
      rw [hOff] at hTrue
      cases hTrue
    exact errs_snoc.mpr ⟨hQuiet.1, hQuiet.2, hDiffers.mp hDifference⟩
  · intro k hk time inputs hAdmits hErrs
    obtain ⟨ρ, hρ, hChooses, hDone, hFalse⟩ :=
      h.exists_chooses hStages hDrive hk hAdmits hErrs.1 false
    obtain ⟨ys, xs, rfl, _, _, hDiffers⟩ :=
      h.shows hStages hDrive hρ (.inl (List.mem_map_of_mem hk)) hChooses
    have hDifference := hDiffers.mpr (errs_snoc.mp hErrs).2.2
    refine ⟨ρ, ⟨hρ, Encoder.mem_models_snoc.mpr (.inl hDifference)⟩, hChooses, ?_⟩
    rw [meets_append, meets_singleton, Lit.holds_neg, hFalse]
    exact ⟨hDone, rfl⟩

end SoftError.Vulnerability.Incremental

import SoftError.Proofs.Fault.Injection
import SoftError.Proofs.Fault.Recovery
import SoftError.Proofs.Superfluous.Harmless
import SoftError.Proofs.Unrolling.Constant

/-!
# Flips settled without a solver

On definite inputs and without an environment, the golden run is known. A flip that changes an
output in its own step is harmful, and one that raises the alarm and leaves the golden state
behind is superfluous. Only the others are left to the solver.
-/

namespace SoftError.Superfluous

variable {p : Problem}

/-- The concrete run that goes along with a symbolic one. -/
structure Concrete (p : Problem) (past : List (List Level)) (golden : Table Lit)
    (t : Table Bool) : Prop where
  environment : p.environment = none
  definite : p.mode.freeInputs = false
  table : t = p.circuit.run (readings past)
  golden : golden.Folds t
  harmless : ∀ f : Fault, past.length ≤ f.time → Harmless p f (readings past)

section Effect

variable {k : Component} {o : Observation}
  (h : ∀ v, o.faulty.get v = ((o.golden.flip p.circuit k.index).settle p.circuit).get v)
include h

theorem agrees_of_effect (hEffect : effect p k o.golden = .wrongOutput) :
    o.agrees p.circuit = false := by
  rw [effect, ← Table.observed_congr h] at hEffect
  split at hEffect
  · rename_i hNe
    exact decide_eq_false (Ne.symm hNe)
  · split at hEffect <;> cases hEffect

theorem converges_of_effect (hEffect : effect p k o.golden = .superfluous) :
    o.agrees p.circuit = true ∧ o.faulty.alarm p.circuit = true ∧
      o.converges p.circuit p.reserved = true := by
  rw [effect, ← Table.observed_congr h, ← Table.alarm_congr h, ← Table.nextState_congr h] at hEffect
  split at hEffect
  · cases hEffect
  · rename_i hSame
    split at hEffect
    · rename_i hGone
      exact ⟨decide_eq_true (not_not.mp hSame).symm, hGone.1, decide_eq_true hGone.2.symm⟩
    · cases hEffect

end Effect

/-- A flip in the next step. -/
def upcoming (k : Component) (past : List (List Level)) : Fault := ⟨k.index, past.length⟩

section Settle

variable {past : List (List Level)} {levels : List Level} {golden : Table Lit} {t : Table Bool}
  {k : Component}

/-- What the next step shows of the flip. -/
def glimpse (p : Problem) (k : Component) (past : List (List Level)) (levels : List Level) :
    Observation :=
  (upcoming k past).observe p.circuit past.length ((upcoming k past).run p.circuit (readings past))
    (levels.map Level.toBool)

theorem glimpse_golden (h : Concrete p past golden t) :
    (glimpse p k past levels).golden = t.step p.circuit (levels.map Level.toBool) := by
  rw [h.table, ← Fault.run_fst p.circuit (upcoming k past)]
  rfl

theorem get_glimpse_faulty (h : Concrete p past golden t) (v : Nat) :
    (glimpse p k past levels).faulty.get v =
      (((glimpse p k past levels).golden.flip p.circuit k.index).settle p.circuit).get v := by
  have hSame := (upcoming k past).run_same p.circuit (.inl (Nat.le_of_eq (length_readings past)))
  rw [Fault.run_fst, ← h.table] at hSame
  have hStrike : (upcoming k past).strike p.circuit past.length t = t.flip p.circuit k.index :=
    if_pos rfl
  rw [glimpse_golden h, Table.get_settle_flip_step, ← hStrike, glimpse, Fault.observe, ← hSame]

theorem replay_upcoming (p : Problem) (k : Component) (past : List (List Level))
    (levels : List Level) : (upcoming k past).replay p.circuit (readings (past ++ [levels])) =
    (upcoming k past).replay p.circuit (readings past) ++ [glimpse p k past levels] := by
  rw [readings, List.map_append, List.map_singleton, Fault.replay_snoc]
  change _ ++ [(upcoming k past).observe p.circuit (readings past).length _ _] = _
  rw [length_readings]
  rfl

theorem harmless_upcoming_iff (hEnvironment : p.environment = none) :
    Harmless p (upcoming k past) (readings (past ++ [levels])) ↔
      Harmless p (upcoming k past) (readings past) ∧
        (glimpse p k past levels).golden.alarm p.circuit = false ∧
        (glimpse p k past levels).agrees p.circuit = true := by
  have hSnoc : readings (past ++ [levels]) = readings past ++ [levels.map Level.toBool] :=
    List.map_append
  rw [hSnoc, harmless_snoc, verdict_of_environment hEnvironment, benign_none_iff, length_readings]
  rfl

section Concrete

variable (h : Concrete p past golden t)
include h

theorem Concrete.not_harmless
    (hEffect : effect p k (t.step p.circuit (levels.map Level.toBool)) = .wrongOutput) :
    ¬ Harmless p (upcoming k past) (readings (past ++ [levels])) := by
  rw [← glimpse_golden h] at hEffect
  have hWrong := agrees_of_effect (get_glimpse_faulty h) hEffect
  rw [harmless_upcoming_iff h.environment, hWrong]
  rintro ⟨_, _, hTrue⟩
  cases hTrue

variable (hLow : (t.step p.circuit (levels.map Level.toBool)).alarm p.circuit = false)
include hLow

theorem Concrete.recovers
    (hEffect : effect p k (t.step p.circuit (levels.map Level.toBool)) = .superfluous) :
    Recovers p (upcoming k past) (readings (past ++ [levels])) ∧
      (glimpse p k past levels).faulty.alarm p.circuit = true := by
  have hGolden : (glimpse p k past levels).golden = _ := glimpse_golden h
  rw [← hGolden] at hEffect hLow
  obtain ⟨hAgrees, hAlarm, hGone⟩ := converges_of_effect (get_glimpse_faulty h) hEffect
  have hHarmless := (harmless_upcoming_iff h.environment).mpr
    ⟨h.harmless (upcoming k past) (Nat.le_refl _), hLow, hAgrees⟩
  refine ⟨⟨hHarmless, ⟨_, ?_, hAlarm⟩, _, ?_, hGone⟩, hAlarm⟩
  · rw [replay_upcoming]
    exact List.mem_append_right _ (List.mem_singleton_self _)
  · rw [replay_upcoming, List.getLast?_concat]

/-- The trace of a flip that is settled at once. -/
theorem Concrete.replays {s : Stimulus} (hFree : s.hasFree = false)
    (hSteps : s.steps.take (past.length + 1) = past ++ [levels])
    (hEffect : effect p k (t.step p.circuit (levels.map Level.toBool)) = .superfluous) :
    Replays p s { component := k, flip := past.length, alarm := past.length
                  gone := past.length + 1, stimulus := s.take (past.length + 1) } := by
  have hBools : (s.take (past.length + 1)).bools = readings (past ++ [levels]) :=
    congrArg readings hSteps
  obtain ⟨hRecovers, hAlarm⟩ := h.recovers hLow hEffect
  have hReplay := replay_upcoming p k past levels
  have hLength : ((upcoming k past).replay p.circuit (readings past)).length = past.length := by
    rw [Fault.length_replay, length_readings]
  refine ⟨Nat.le_refl _, Nat.lt_succ_self _, ?_, ?_, ?_, hBools ▸ hRecovers, ⟨_, ?_, hAlarm⟩,
    ?_, ?_⟩
  · change (s.steps.take _).length = _
    rw [hSteps, List.length_append]
    rfl
  · refine Bool.eq_false_iff.mpr fun hTrue => ?_
    obtain ⟨vs, hvs, hAny⟩ := List.any_eq_true.mp hTrue
    have hMem : s.hasFree = true := List.any_eq_true.mpr ⟨vs, List.mem_of_mem_take hvs, hAny⟩
    rw [hFree] at hMem
    cases hMem
  · exact admitsSteps_readings _
  · rw [hBools]
    change ((upcoming k past).replay p.circuit _)[past.length]? = _
    rw [hReplay, List.getElem?_append_right hLength.le, hLength, Nat.sub_self]
    rfl
  · intro i hi o ho
    change ((upcoming k past).replay p.circuit _)[i]? = _ at ho
    rw [hBools, hReplay, List.getElem?_append_left (hLength ▸ hi)] at ho
    rw [← Fault.golden_eq_faulty p.circuit _ ho (.inl hi)]
    exact (h.harmless (upcoming k past) (Nat.le_refl _) i o ho).golden
  · intro _ i hi hGone
    exact absurd (Nat.lt_of_succ_lt_succ hGone) (Nat.not_lt_of_le hi)

theorem Concrete.advance {golden' : Table Lit}
    (hGolden : golden'.Folds (t.step p.circuit (levels.map Level.toBool))) :
    Concrete p (past ++ [levels]) (golden'.advance p.circuit)
      ((t.step p.circuit (levels.map Level.toBool)).advance p.circuit) := by
  have hSnoc : readings (past ++ [levels]) = readings past ++ [levels.map Level.toBool] :=
    List.map_append
  refine ⟨h.environment, h.definite, ?_, hGolden.advance p.circuit, fun f hTime => ?_⟩
  · rw [hSnoc, Circuit.run_snoc, h.table]
  · rw [List.length_append, List.length_singleton] at hTime
    rw [hSnoc, harmless_snoc, verdict_of_environment h.environment, benign_none_iff]
    refine ⟨h.harmless f (Nat.le_of_succ_le hTime), ?_, ?_⟩
    · change ((f.run p.circuit _).1.step p.circuit _).alarm p.circuit = false
      rw [Fault.run_fst, ← h.table]
      exact hLow
    · have hSame := f.observe_same p.circuit (levels.map Level.toBool)
        (.inl (Nat.lt_of_lt_of_le (Nat.lt_succ_of_le (length_readings past).le) hTime))
      rw [Observation.agrees, hSame, decide_eq_true_eq]

end Concrete

theorem settle_cases (p : Problem) (s : Stimulus) (time : Nat) (concrete : Option (Table Bool))
    (location : Location) :
    settle p s time concrete location = (true, none) ∨
      ∃ k t, location = .fixed k ∧ concrete = some t ∧
        (effect p k t = .wrongOutput ∧ settle p s time concrete location = (false, none) ∨
          effect p k t = .superfluous ∧ settle p s time concrete location =
            (false, some { component := k, flip := time, alarm := time, gone := time + 1
                           stimulus := s.take (time + 1) })) := by
  cases location with
  | selected all => exact .inl rfl
  | fixed k =>
    cases concrete with
    | none => exact .inl rfl
    | some t =>
      rw [settle, Option.map_some]
      cases hEffect : effect p k t with
      | undecided => exact .inl rfl
      | wrongOutput => exact .inr ⟨k, t, rfl, rfl, .inl ⟨hEffect, rfl⟩⟩
      | superfluous => exact .inr ⟨k, t, rfl, rfl, .inr ⟨hEffect, rfl⟩⟩

variable (p) in
/-- What becomes of the flip in the next step: it is left to the solver, does harm whatever the
inputs, or is found at once. -/
inductive Settles (s : Stimulus) (past : List (List Level)) (levels : List Level) :
    Location → Bool × Option SuperfluousTrace → Prop where
  | pending {location : Location} : Settles s past levels location (true, none)
  | harmful {k : Component} (h : ∀ inputs, AdmitsSteps (past ++ [levels]) inputs →
      ¬ Harmless p ⟨k.index, past.length⟩ inputs) : Settles s past levels (.fixed k) (false, none)
  | immediate {t : SuperfluousTrace} (hFlip : t.flip = past.length) (h : Replays p s t) :
    Settles s past levels (.fixed t.component) (false, some t)

theorem settles_settle {s : Stimulus} {location : Location} {concrete : Option (Table Bool)}
    (h : ∀ t ∈ concrete, Concrete p past golden t)
    (hLow : ∀ t ∈ concrete, (t.step p.circuit (levels.map Level.toBool)).alarm p.circuit = false)
    (hFree : p.mode.freeInputs = false → s.hasFree = false)
    (hSteps : s.steps.take (past.length + 1) = past ++ [levels]) :
    Settles p s past levels location (settle p s past.length
      (concrete.map fun t => t.step p.circuit (levels.map Level.toBool)) location) := by
  rcases settle_cases p s past.length
    (concrete.map fun t => t.step p.circuit (levels.map Level.toBool)) location with
    hEq | ⟨k, t', rfl, hSome, hCases⟩
  · rw [hEq]
    exact .pending
  · obtain ⟨t, ht, rfl⟩ := Option.map_eq_some_iff.mp hSome
    have hConcrete := h t ht
    have hStimulus := hFree hConcrete.definite
    rcases hCases with ⟨hEffect, hEq⟩ | ⟨hEffect, hEq⟩
    · rw [hEq]
      refine .harmful fun inputs hAdmits => ?_
      have hDefinite : ∀ vs ∈ past ++ [levels], ∀ v ∈ vs, v ≠ .free := fun vs hvs =>
        Stimulus.ne_free_of_hasFree hStimulus vs (List.mem_of_mem_take (hSteps ▸ hvs))
      rw [hAdmits.eq_readings hDefinite]
      exact hConcrete.not_harmless hEffect
    · rw [hEq]
      exact .immediate rfl (hConcrete.replays (hLow t ht) hStimulus hSteps hEffect)

end Settle

end SoftError.Superfluous

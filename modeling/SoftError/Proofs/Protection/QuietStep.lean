import SoftError.Proofs.Protection.Exposure

/-!
# Steps without an alarm

Both searches start in an arbitrary state with a step on arbitrary inputs that raises no alarm,
and compare it with the step of another run.
-/

namespace SoftError

namespace Encoder

variable {M : Set Assignment} {e : Encoder}

/-- A clause that says whether the first vectors differ, or the second ones if they count. -/
def differsEither (e : Encoder) (xs ys : List Lit) (counts : Bool) (zs ws : List Lit) :
    Clause × Encoder :=
  let first := e.differs xs ys
  let second := if counts then first.2.differs zs ws else ([], first.2)
  (first.1 ++ second.1, second.2)

structure TellsEither (M : Set Assignment) (e : Encoder) (xs ys : List Lit) (counts : Bool)
    (zs ws : List Lit) (r : Clause × Encoder) : Prop extends Extends M e r.2 where
  bounded : ∀ l ∈ r.1, l.var < r.2.nextVar
  models : ∀ ρ ∈ r.2.models M, ρ ∈ r.1.models ↔ xs.map (Lit.holds ρ) ≠ ys.map (Lit.holds ρ) ∨
    counts = true ∧ zs.map (Lit.holds ρ) ≠ ws.map (Lit.holds ρ)

theorem Valid.differsEither (h : e.Valid M) {xs ys zs ws : List Lit} (counts : Bool)
    (hFirst : xs.length = ys.length) (hxs : ∀ l ∈ xs, l.var < e.nextVar)
    (hys : ∀ l ∈ ys, l.var < e.nextVar) (hSecond : zs.length = ws.length)
    (hzs : ∀ l ∈ zs, l.var < e.nextVar) (hws : ∀ l ∈ ws, l.var < e.nextVar) :
    TellsEither M e xs ys counts zs ws (e.differsEither xs ys counts zs ws) := by
  have hTells := h.differs hFirst hxs hys
  have hEmpty : ∀ ρ : Assignment, ρ ∉ Clause.models [] := fun ρ hρ => by
    obtain ⟨l, hl, _⟩ := Clause.mem_models.mp hρ
    cases hl
  rw [Encoder.differsEither]
  cases counts with
  | false =>
    refine ⟨hTells.toExtends, ?_, fun ρ hρ => ?_⟩
    · exact List.forall_mem_append.mpr ⟨hTells.bounded, List.forall_mem_nil _⟩
    · rw [Clause.mem_models_append, hTells.models ρ hρ]
      simp [hEmpty]
  | true =>
    have hTells' := hTells.valid.differs hSecond
      (fun l hl => lt_of_lt_of_le (hzs l hl) hTells.le)
      (fun l hl => lt_of_lt_of_le (hws l hl) hTells.le)
    refine ⟨hTells.toExtends.trans hTells'.toExtends, ?_, fun ρ hρ => ?_⟩
    · refine List.forall_mem_append.mpr ⟨fun l hl => ?_, hTells'.bounded⟩
      exact lt_of_lt_of_le (hTells.bounded l hl) hTells'.le
    · rw [Clause.mem_models_append, hTells.models ρ (hTells'.subset hρ)]
      rw [if_pos rfl, hTells'.models ρ hρ]
      simp [hEmpty]

end Encoder

theorem Table.Below.state {n : Nat} {T : Table Lit} (h : T.Below n) (c : Circuit) :
    ∀ l ∈ T.state c, l.var < n := by
  intro l hl
  obtain ⟨latch, _, rfl⟩ := List.mem_map.mp hl
  exact h.read latch.signal

/-- The vectors of two steps differ as their observation says. -/
theorem Observation.differs_iff {c : Circuit} {reserved : Nat} {o : Observation}
    {xs ys zs ws : List Bool} {counts : Bool} (hGolden : xs = o.golden.observed c)
    (hFaulty : ys = o.faulty.observed c) (hNext : counts = true → zs = o.golden.nextState c)
    (hNext' : ws = o.faulty.nextState c) :
    (xs ≠ ys ∨ counts = true ∧
        zs.take (c.latches.length - reserved) ≠ ws.take (c.latches.length - reserved)) ↔
      o.agrees c = false ∨ counts = true ∧ o.converges c reserved = false := by
  rw [hGolden, hFaulty, hNext', Observation.agrees, decide_eq_false_iff_not]
  refine or_congr_right (and_congr_right fun hCounts => ?_)
  rw [hNext hCounts, Observation.converges, decide_eq_false_iff_not]

namespace Protection

variable {c : Circuit} {M : Set Assignment} {e : Encoder} {u : Unrolling}

/-- Every state is that of some assignment. -/
structure Opens (c : Circuit) (M : Set Assignment) (e : Encoder) (r : Unrolling × Encoder) : Prop
    extends Encoder.Extends M e r.2 where
  bounded : r.1.table.Below r.2.nextVar
  values : ∀ ρ ∈ r.2.models M, r.1.table.Values (Lit.holds ρ)
    ((Table.initial c).setState c ((r.1.state c).map (Lit.holds ρ)))
  reach : ∀ ρ ∈ e.models M, ∀ state : List Bool, state.length = c.latches.length →
    ∃ ρ' ∈ r.2.models M, AgreeBelow e.nextVar ρ ρ' ∧ (r.1.state c).map (Lit.holds ρ') = state

theorem state_setState {ls : List Lit} (h : ls.length = c.latches.length) :
    (u.setState c ls).state c = ls := by
  refine Eq.trans ?_ (Table.map_get_setLatches c.latches_nodup u.table h)
  exact List.map_congr_left fun l hl => Table.read_of_plain (c.latch_plain hl) _

theorem opens_openState (h : e.Valid M) : Opens c M e ((Unrolling.initial c).openState c e) := by
  have hLength : (e.freshList c.latches.length).1.length = c.latches.length :=
    e.pool.length_freshList c.latches.length
  have hFresh := h.freshList_extends c.latches.length
  have hState : ((Unrolling.initial c).openState c e).1.state c =
      (e.freshList c.latches.length).1 := state_setState hLength
  refine ⟨hFresh, ?_, fun ρ hρ => ?_, fun ρ hρ state hWidth => ?_⟩
  · refine Eq.subst (motive := Table.Below _)
      (Table.setLatches_eq_setAll _ c.latches (e.freshList c.latches.length).1).symm ?_
    exact (Table.below_initial (Encoder.two_le_nextVar _) c).setAll _
      fun l hl => (OneHot.var_lt_of_mem_freshList hl).2
  · rw [hState]
    exact (Table.values_initial (evaluation_holds (hFresh.valid.mem_pinned hρ)) c).setLatches
      c.latches _
  · obtain ⟨ρ', hρ', hAgree, hMap⟩ := h.exists_freshList hρ state
    rw [hWidth] at hρ' hMap
    exact ⟨ρ', hρ', hAgree, hState.symm ▸ hMap⟩

variable (c) in
/-- A step with arbitrary inputs and without an alarm. -/
def quietStep (u : Unrolling) (e : Encoder) : Unrolling × Encoder :=
  let r := ((u.openInputs c e).1).step c (u.openInputs c e).2
  (r.1, r.2.add [[-r.1.alarm c]])

structure Quiets (c : Circuit) (M : Set Assignment) (u : Unrolling) (e : Encoder)
    (r : Unrolling × Encoder) : Prop where
  valid : r.2.Valid M
  le : e.nextVar ≤ r.2.nextVar
  subset : r.2.models M ⊆ e.models M
  bounded : r.1.table.Below r.2.nextVar
  values : ∀ ρ ∈ r.2.models M, ∀ t, u.table.Values (Lit.holds ρ) t →
    r.1.table.Values (Lit.holds ρ) (t.step c ((r.1.inputs c).map (Lit.holds ρ)))
  low : ∀ ρ ∈ r.2.models M, (r.1.alarm c).holds ρ = false
  lift : ∀ ρ ∈ e.models M, ∀ t, u.table.Values (Lit.holds ρ) t → ∀ xs : List Bool,
    xs.length = c.inputs.length → (t.step c xs).alarm c = false →
      ∃ ρ' ∈ r.2.models M, AgreeBelow e.nextVar ρ ρ' ∧ (r.1.inputs c).map (Lit.holds ρ') = xs

theorem quiets_quietStep (h : e.Valid M) (hu : u.table.Below e.nextVar) :
    Quiets c M u e (quietStep c u e) := by
  have hLength : (e.freshList c.inputs.length).1.length = c.inputs.length :=
    e.pool.length_freshList c.inputs.length
  have hFresh := h.freshList_extends c.inputs.length
  have hTable : (u.openInputs c e).1.table.Below (u.openInputs c e).2.nextVar :=
    (hu.mono hFresh.le).setAll c.inputs fun l hl => (OneHot.var_lt_of_mem_freshList hl).2
  have hStep := Unrolling.performs_step (c := c) hFresh.valid hTable
  have hInputs : (quietStep c u e).1.inputs c = (e.freshList c.inputs.length).1 :=
    (Unrolling.inputs_step _ _).trans (Unrolling.inputs_setInputs u hLength)
  have hValues : ∀ ρ ∈ ((u.openInputs c e).1.step c (u.openInputs c e).2).2.models M, ∀ t,
      u.table.Values (Lit.holds ρ) t → (quietStep c u e).1.table.Values (Lit.holds ρ)
        (t.step c (((quietStep c u e).1.inputs c).map (Lit.holds ρ))) := by
    intro ρ hρ t ht
    rw [hInputs]
    exact hStep.values ρ hρ _ (ht.setAll c.inputs _)
  have hAlarm := hStep.bounded.alarm (Encoder.two_le_nextVar _) c
  refine ⟨hStep.valid.addLow hAlarm, hFresh.le.trans hStep.le, fun ρ hρ => ?_, hStep.bounded,
    fun ρ hρ => hValues ρ (Encoder.mem_models_addLow.mp hρ).1,
    fun ρ hρ => (Encoder.mem_models_addLow.mp hρ).2, fun ρ hρ t ht xs hxs hLow => ?_⟩
  · exact hFresh.subset (hStep.subset (Encoder.mem_models_addLow.mp hρ).1)
  · obtain ⟨ρ₁, hρ₁, hAgree₁, hMap⟩ := h.exists_freshList hρ xs
    rw [hxs] at hρ₁ hMap
    obtain ⟨ρ₂, hρ₂, hAgree₂⟩ := hStep.lift ρ₁ hρ₁
    have hAgree := hAgree₁.trans (hAgree₂.mono hFresh.le)
    have hRead : ((quietStep c u e).1.inputs c).map (Lit.holds ρ₂) = xs := by
      rw [hInputs, ← hMap]
      exact (hAgree₂.map_holds fun l hl => (OneHot.var_lt_of_mem_freshList hl).2).symm
    refine ⟨ρ₂, Encoder.mem_models_addLow.mpr ⟨hρ₂, ?_⟩, hAgree, hRead⟩
    have hTable' := hValues ρ₂ hρ₂ t (hu.values_congr hAgree ht)
    rw [hRead] at hTable'
    exact (hTable'.alarm (evaluation_holds (hStep.valid.mem_pinned hρ₂)) c).trans hLow

end Protection

end SoftError

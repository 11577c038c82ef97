import SoftError.Proofs.Decision.Progress
import SoftError.Proofs.Protection.Unrolled

/-!
# Searching over several steps

The clauses of a latch are satisfiable together with the golden run if and only if its flip can
go unnoticed. The session is restored after each latch, so the answers do not depend on the
latches before it.
-/

namespace SoftError.Protection.ManySteps

open Deciding ExactProcedure

variable {c : Circuit} {reserved : Nat}

theorem inputValues_congr {n : Nat} {ρ ρ' : Assignment} (hAgree : AgreeBelow n ρ ρ')
    {steps : List Step} (h : ∀ s ∈ steps, StepBelow c n s) :
    inputValues ρ steps = inputValues ρ' steps :=
  List.map_congr_left fun s hs => hAgree.map_holds (h s hs).inputs_lt

theorem map_holds_modify (ρ : Assignment) (ls : List Lit) (i : Nat) :
    (ls.modify i (- ·)).map (Lit.holds ρ) = (ls.map (Lit.holds ρ)).modify i not := by
  apply List.ext_getElem?
  intro j
  rw [List.getElem?_map, List.getElem?_modify, List.getElem?_modify, List.getElem?_map]
  cases ls[j]? with
  | none => rfl
  | some l => by_cases hij : i = j <;> simp [hij]

variable (c) in
/-- The run in which a latch is inverted, before its first step. -/
def flipped (g : Golden) (x : Component) : Unrolling :=
  (Unrolling.initial c).setState c (g.state.modify x.index (- ·))

section Flipped

variable {M : Set Assignment} {e e' : Encoder} {k : Nat} {g : Golden} {x : Component}
  {latch : Latch} (h : Starts c M e k (g, e'))
include h

theorem below_flipped : (flipped c g x).table.Below e'.nextVar := by
  have hTwo := e'.two_le_nextVar
  rw [flipped, Unrolling.setState]
  change ((Table.initial c).setLatches c.latches _).Below _
  rw [Table.setLatches_eq_setAll]
  refine (Table.below_initial hTwo c).setAll _ fun l hl => ?_
  obtain ⟨i, hi⟩ := List.mem_iff_getElem?.mp hl
  rw [List.getElem?_modify, Option.map_eq_map] at hi
  obtain ⟨m, hm, rfl⟩ := Option.map_eq_some_iff.mp hi
  have hVar := h.state_lt m (List.mem_of_getElem? hm)
  split
  · rw [Lit.var_neg]
    exact hVar
  · exact hVar

theorem values_flipped (hLatch : c.latches[x.index]? = some latch) {ρ : Assignment}
    (hρ : ρ ∈ pinned) : (flipped c g x).table.Values (Lit.holds ρ) (Fault.strike c ⟨x.index, 0⟩ 0
      ((Table.initial c).setState c (g.state.map (Lit.holds ρ)))) := by
  have hSet := (Table.values_initial (evaluation_holds hρ) c).setLatches c.latches
    (g.state.modify x.index (- ·))
  rw [map_holds_modify] at hSet
  refine Table.Values.congr hSet fun v => ?_
  rw [Fault.strike, if_pos rfl]
  exact Table.get_setState_modify hLatch _ ((List.length_map _).trans h.state_length) v

end Flipped

section Golden

variable {k : Nat} {g : Golden} {e : Encoder} (hGolden : golden c (k + 1) .caching = (g, e))
include hGolden

theorem starts_caching : Starts c pinned .caching (k + 1) (g, e) :=
  hGolden ▸ starts_golden (Encoder.valid_empty rfl fun _ hSome => (Option.some.inj hSome).symm) k

/-- The run of a latch is put on top of the golden run, whose clauses have been taken. -/
theorem detects_faultyRun (reserved : Nat) (x : Component) :
    Detects c (pinned ∩ Cnf.models e.take.1) e.take.2 (flipped c g x) reserved g.next .top g.steps
      (faultyRun c g (c.latches.length - reserved) x e.take.2) := by
  have hStarts := starts_caching hGolden
  have hFlipped := below_flipped (x := x) hStarts
  exact detects_faultySteps reserved hStarts.valid.take hFlipped e.take.2.two_le_nextVar
    hStarts.steps hStarts.next_length hStarts.next_lt

theorem below_faultyRun (reserved : Nat) (x : Component) :
    Cnf.Below (faultyRun c g (c.latches.length - reserved) x e.take.2).2.nextVar
      ((faultyRun c g (c.latches.length - reserved) x e.take.2).1 ::
        (faultyRun c g (c.latches.length - reserved) x e.take.2).2.take.1) := by
  have hDetects := detects_faultyRun hGolden reserved x
  exact List.forall_mem_cons.mpr ⟨hDetects.bounded, hDetects.valid.below⟩

end Golden

/-- The clauses of a latch say whether its flip can go unnoticed. -/
theorem exists_error_iff {k : Nat} {g : Golden} {e : Encoder} {x : Component} {latch : Latch}
    (hGolden : golden c (k + 1) .caching = (g, e)) (hLatch : c.latches[x.index]? = some latch) :
    (∃ ρ ∈ pinned ∩ Cnf.models e.take.1 ∩
        Cnf.models (faulty c g (c.latches.length - reserved) x e.take.2).1,
      ρ ∈ Clause.models (faulty c g (c.latches.length - reserved) x e.take.2).2) ↔
      Exposed c reserved (k + 1) x.index := by
  have hStarts := starts_caching hGolden
  have hDetects := detects_faultyRun hGolden reserved x
  have hOwn : e.take.2.models (pinned ∩ Cnf.models e.take.1) = pinned ∩ Cnf.models e.take.1 :=
    Encoder.models_eq_of_pending rfl
  constructor
  · -- the state and the inputs of a model are those of an exposing run
    rintro ⟨ρ, hρ, hErrors⟩
    have hFirst := hρ.1
    have hPortrays := hStarts.values ρ hFirst
    obtain ⟨-, hUnnoticed⟩ := hDetects.sound ρ hρ x.index 0 _ _
      (values_flipped hStarts hLatch hFirst.1) hPortrays (Clause.mem_models.mp hErrors)
    refine ⟨g.state.map (Lit.holds ρ), inputValues ρ g.steps, ?_, ?_, ?_, ?_, hUnnoticed⟩
    · exact (List.length_map _).trans hStarts.state_length
    · exact (List.length_map _).trans hStarts.length
    · refine List.forall_mem_map.mpr fun s hs => ?_
      exact (List.length_map _).trans (hStarts.steps s hs).inputs_length
    · exact hPortrays.quiet _ 0 _
  · rintro ⟨state, inputs, hExposes⟩
    -- first the golden run is given its values, then the literals of the errors follow
    obtain ⟨ρ₁, hρ₁, hState, hInputs⟩ := hStarts.lift (fun _ => false) ⟨rfl, rfl⟩ state
      hExposes.state_length inputs hExposes.length hExposes.input_length x.index hExposes.quiet
    obtain ⟨ρ₂, hρ₂, hAgree, hRaise⟩ := hDetects.raise ρ₁ (hOwn.symm ▸ hρ₁)
    have hFirst : ρ₂ ∈ pinned ∩ Cnf.models e.take.1 := hOwn ▸ hDetects.subset hρ₂
    rw [hAgree.map_holds hStarts.state_lt] at hState
    rw [inputValues_congr hAgree hStarts.steps] at hInputs
    have hPortrays := hStarts.values ρ₂ hFirst
    have hUnnoticed := hExposes.unnoticed
    rw [flipReplay, ← hState, ← hInputs] at hUnnoticed
    exact ⟨ρ₂, hρ₂, Clause.mem_models.mpr (hRaise x.index 0 _ _
      (values_flipped hStarts hLatch hFirst.1) hPortrays (holds_top hFirst.1) hUnnoticed)⟩

section Session

variable {σ : Type} [DecisionProcedure σ] [ExactProcedure σ] {k : Nat} {g : Golden} {e : Encoder}
  {ks found : List Component} {s s' : σ}

theorem mem_onLatches (hGolden : golden c (k + 1) .caching = (g, e))
    (hLatch : ∀ x ∈ ks, ∃ l, c.latches[x.index]? = some l)
    (hs : frames s = [pinned ∩ Cnf.models e.take.1, pinned ∩ Cnf.models e.take.1])
    (h : Returns (onLatches c g (c.latches.length - reserved) e.take.2 ks) s found s')
    (x : Component) : x ∈ found ↔ x ∈ ks ∧ ¬ Exposed c reserved (k + 1) x.index := by
  induction ks generalizing s found with
  | nil =>
    obtain ⟨rfl, -⟩ := returns_pure.mp h
    simp
  | cons y ks ih =>
    obtain ⟨⟨l, hl⟩, hLatch⟩ := List.forall_mem_cons.mp hLatch
    obtain ⟨_, s₁, hClauses, h⟩ := returns_bind.mp h
    obtain ⟨_, s₂, hErrors, h⟩ := returns_bind.mp h
    obtain ⟨exposed, s₃, hCheck, h⟩ := returns_bind.mp h
    obtain ⟨_, s₄, hPop, h⟩ := returns_bind.mp h
    obtain ⟨_, s₅, hPush, h⟩ := returns_bind.mp h
    obtain ⟨more, s₆, hMore, h⟩ := returns_bind.mp h
    obtain ⟨rfl, rfl⟩ := returns_pure.mp h
    have hs₁ := frames_addCnf hs hClauses
    have hs₂ := frames_addFolded hs₁ (Set.inter_subset_left.trans Set.inter_subset_left) hErrors
    obtain ⟨hs₃, hExposed⟩ := check_returns hs₂ hCheck
    -- the session is restored, so the next latch finds it as it was
    have hs₅ := frames_push (frames_pop hs₃ hPop) hPush
    have hIff : exposed = true ↔ Exposed c reserved (k + 1) y.index := by
      rw [← exists_error_iff hGolden hl]
      exact hExposed.trans (exists_congr fun ρ => ⟨And.left, fun hρ => ⟨hρ, List.forall_mem_nil _⟩⟩)
    have hRest := ih hLatch hs₅ hMore
    cases exposed with
    | true =>
      rw [if_pos rfl, hRest, List.mem_cons]
      refine and_congr_left fun hNot => ⟨.inr, fun hx => hx.resolve_left ?_⟩
      rintro rfl
      exact hNot (hIff.mp rfl)
    | false =>
      have hNot : ¬ Exposed c reserved (k + 1) y.index := fun hY => nomatch hIff.mpr hY
      rw [if_neg Bool.false_ne_true, List.mem_cons, List.mem_cons, hRest, or_and_right]
      refine or_congr_left ⟨fun hx => ⟨hx, hx ▸ hNot⟩, And.left⟩

theorem mem_search {checked : List Component}
    (hLatch : ∀ x ∈ checked, ∃ l, c.latches[x.index]? = some l)
    (h : Returns (search c checked (c.latches.length - reserved) (k + 1)) s found s')
    (x : Component) : x ∈ found ↔ x ∈ checked ∧ ¬ Exposed c reserved (k + 1) x.index := by
  rw [search] at h
  cases hGolden : golden c (k + 1) .caching with
  | mk g e =>
    rw [hGolden] at h
    obtain ⟨_, s₁, hStart, h⟩ := returns_bind.mp h
    obtain ⟨_, s₂, hTop, h⟩ := returns_bind.mp h
    obtain ⟨_, s₃, hClauses, h⟩ := returns_bind.mp h
    obtain ⟨_, s₄, hPush, h⟩ := returns_bind.mp h
    obtain ⟨result, s₅, hLatches, h⟩ := returns_bind.mp h
    obtain ⟨_, s₆, -, h⟩ := returns_bind.mp h
    obtain ⟨rfl, -⟩ := returns_pure.mp h
    have hs₃ := frames_addCnf (frames_opened hStart hTop) hClauses
    exact mem_onLatches hGolden hLatch (frames_push hs₃ hPush) hLatches x

variable {Ready : Bool → σ → Prop} (hAnswers : Answering (fun _ => True) Ready)
include hAnswers

theorem yields_onLatches {M : Set Assignment} (hM : M ⊆ pinned) (compared : Nat)
    (hs : Live Ready true [M, M] s) :
    Yields (onLatches c g compared e ks) s fun _ _ => True := by
  induction ks generalizing s with
  | nil => exact yields_pure trivial
  | cons x ks ih =>
    refine (hAnswers.yields_addCnf hs _).bind fun _ _ hs₁ => ?_
    refine (hAnswers.yields_addFolded hs₁ (Set.inter_subset_left.trans hM) _).bind
      fun _ _ hs₂ => ?_
    refine (hAnswers.yields_check hs₂ []).bind fun _ _ hs₃ => ?_
    refine (hAnswers.yields_pop hs₃).bind fun _ _ hs₄ => ?_
    refine (hAnswers.yields_push hs₄).bind fun _ _ hs₅ => ?_
    exact (ih hs₅).bind fun _ _ _ => yields_pure trivial

theorem yields_search {nested : Bool} (hs : Ready nested s) (checked : List Component)
    (compared k : Nat) : Yields (search c checked compared k) s fun _ _ => True := by
  refine (hAnswers.yields_start hs [] true).bind fun _ _ hs₁ => ?_
  refine (hAnswers.yields_addTop hs₁).bind fun _ _ hs₂ => ?_
  refine (hAnswers.yields_addCnf hs₂ _).bind fun _ _ hs₃ => ?_
  refine (hAnswers.yields_push hs₃).bind fun _ _ hs₄ => ?_
  refine (yields_onLatches hAnswers Set.inter_subset_left compared hs₄).bind fun _ s₅ _ => ?_
  exact (yields_finish s₅).bind fun _ _ _ => yields_pure trivial

end Session

end SoftError.Protection.ManySteps

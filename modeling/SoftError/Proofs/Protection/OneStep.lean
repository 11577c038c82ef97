import SoftError.Proofs.Decision.Progress
import SoftError.Proofs.Fault.Recovery
import SoftError.Proofs.Protection.QuietStep
import SoftError.Protection.OneStep

/-!
# Searching over one step

All latches are considered at once. A model selects exactly one latch, one whose flip can go
unnoticed, and each such latch is selected by some model: without a flip the two runs do not
differ. As a latch is excluded once it is found, no more models are read than there are latches.
-/

namespace SoftError.Protection.OneStep

open Deciding ExactProcedure

variable {c : Circuit} {reserved : Nat} {M : Set Assignment} {e : Encoder} {u : Unrolling}
  {all : List Candidate}

theorem performs_inject (h : e.Valid M) (hu : u.table.Below e.nextVar)
    (hSelectors : ∀ k ∈ all, k.2.var < e.nextVar)
    (hLatches : ∀ k ∈ all, ∃ l, c.latches[k.1.index]? = some l ∧ k.1.signal = l.signal) :
    Unrolling.Performs M e u.table ((inject c all u e).1.table, (inject c all u e).2) fun ρ t =>
      all.foldl (fun t k => if k.2.holds ρ then t.flip c k.1.index else t) t := by
  induction all generalizing u e with
  | nil => exact .refl h hu
  | cons k all ih =>
    obtain ⟨hSelector, hSelectors⟩ := List.forall_mem_cons.mp hSelectors
    obtain ⟨⟨latch, hLatch, hSignal⟩, hLatches⟩ := List.forall_mem_cons.mp hLatches
    have hHead := Unrolling.performs_flip hLatch hSignal hu
      (h.xor (hu.read k.1.signal) hSelector)
    exact hHead.trans (ih hHead.valid hHead.bounded
      (fun k hk => lt_of_lt_of_le (hSelectors k hk) hHead.le) hLatches)

variable (c) in
/-- The step with the selected latch inverted, where no alarm is raised either. -/
def faultyStep (all : List Candidate) (u : Unrolling) (e : Encoder) : Unrolling × Encoder :=
  let r := (inject c all u e).1.step c (inject c all u e).2
  (r.1, r.2.add [[-r.1.alarm c]])

structure Flips (c : Circuit) (M : Set Assignment) (all : List Candidate) (u : Unrolling)
    (e : Encoder) (r : Unrolling × Encoder) : Prop where
  valid : r.2.Valid M
  le : e.nextVar ≤ r.2.nextVar
  subset : r.2.models M ⊆ e.models M
  bounded : r.1.table.Below r.2.nextVar
  values : ∀ ρ ∈ r.2.models M, ∀ t j, u.table.Values (Lit.holds ρ) t →
    Picks ρ (selection all) j → Possible c all ⟨j, 0⟩ →
      r.1.table.Values (Lit.holds ρ) ((t.flip c j).settle c)
  low : ∀ ρ ∈ r.2.models M, (r.1.alarm c).holds ρ = false
  lift : ∀ ρ ∈ e.models M, ∀ t j, u.table.Values (Lit.holds ρ) t →
    Picks ρ (selection all) j → Possible c all ⟨j, 0⟩ → ((t.flip c j).settle c).alarm c = false →
      ∃ ρ' ∈ r.2.models M, AgreeBelow e.nextVar ρ ρ'

theorem flips_faultyStep (h : e.Valid M) (hu : u.table.Below e.nextVar)
    (hAll : Candidates c all) (hSelectors : ∀ k ∈ all, k.2.var < e.nextVar) :
    Flips c M all u e (faultyStep c all u e) := by
  have hInject := performs_inject h hu hSelectors hAll.latch
  have hStep := hInject.trans (Unrolling.performs_step (c := c) hInject.valid hInject.bounded)
  have hAlarm := hStep.bounded.alarm (Encoder.two_le_nextVar _) c
  have hValues : ∀ ρ ∈ ((inject c all u e).1.step c (inject c all u e).2).2.models M, ∀ t j,
      u.table.Values (Lit.holds ρ) t → Picks ρ (selection all) j → Possible c all ⟨j, 0⟩ →
        (faultyStep c all u e).1.table.Values (Lit.holds ρ) ((t.flip c j).settle c) := by
    intro ρ hρ t j ht hPicks hj
    have hStrikes : ∀ k ∈ all, k.2.holds ρ = (decide (k.1.index = j) && true) :=
      fun k hk => (hPicks.holds hk).trans (Bool.and_true _).symm
    have hFlip := foldl_flip hAll.distinct hStrikes hj t
    rw [if_pos rfl] at hFlip
    rw [← hFlip]
    exact hStep.values ρ hρ t ht
  refine ⟨hStep.valid.addLow hAlarm, hStep.le, fun ρ hρ => ?_, hStep.bounded,
    fun ρ hρ => hValues ρ (Encoder.mem_models_addLow.mp hρ).1,
    fun ρ hρ => (Encoder.mem_models_addLow.mp hρ).2, fun ρ hρ t j ht hPicks hj hLow => ?_⟩
  · exact hStep.subset (Encoder.mem_models_addLow.mp hρ).1
  · obtain ⟨ρ', hρ', hAgree⟩ := hStep.lift ρ hρ
    refine ⟨ρ', Encoder.mem_models_addLow.mpr ⟨hρ', ?_⟩, hAgree⟩
    have hTable := hValues ρ' hρ' t j (hu.values_congr hAgree ht)
      (hPicks.congr hAgree (var_lt_of_mem_selection hSelectors)) hj
    exact (hTable.alarm (evaluation_holds (hStep.valid.mem_pinned hρ')) c).trans hLow

section Runs

variable {opened golden faulty : Unrolling × Encoder} {differs : Clause × Encoder}
  {ρ : Assignment} {j : Nat} (hOpens : Opens c M e opened)
  (hQuiets : Quiets c M opened.1 opened.2 golden) (hFlips : Flips c M all golden.1 golden.2 faulty)
include hOpens hQuiets hFlips

theorem depicts_flipStep (hρ : ρ ∈ faulty.2.models M) (hPicks : Picks ρ (selection all) j)
    (hj : Possible c all ⟨j, 0⟩) : Depicts ρ golden.1.table faulty.1.table
      (flipStep c j ((opened.1.state c).map (Lit.holds ρ))
        ((golden.1.inputs c).map (Lit.holds ρ))) := by
  have hMem := hFlips.subset hρ
  have hGolden := hQuiets.values ρ hMem _ (hOpens.values ρ (hQuiets.subset hMem))
  refine ⟨hGolden, (hFlips.values ρ hρ _ j hGolden hPicks hj).congr fun v => ?_⟩
  exact Table.get_settle_flip_step _ j _ v

variable (hDiffers : Encoder.TellsEither M faulty.2 (golden.1.observed c) (faulty.1.observed c) true
  ((golden.1.nextState c).take (c.latches.length - reserved))
  ((faulty.1.nextState c).take (c.latches.length - reserved)) differs)
include hDiffers

theorem mem_models_differs_iff (hρ : ρ ∈ differs.2.models M) (hPicks : Picks ρ (selection all) j)
    (hj : Possible c all ⟨j, 0⟩) {o : Observation}
    (ho : flipStep c j ((opened.1.state c).map (Lit.holds ρ))
      ((golden.1.inputs c).map (Lit.holds ρ)) = o) :
    ρ ∈ differs.1.models ↔ o.agrees c = false ∨ o.converges c reserved = false := by
  have hDepicts := depicts_flipStep hOpens hQuiets hFlips (hDiffers.subset hρ) hPicks hj
  rw [ho] at hDepicts
  have hev := evaluation_holds (hDiffers.valid.mem_pinned hρ)
  rw [hDiffers.models ρ hρ, List.map_take, List.map_take]
  refine (Observation.differs_iff (hDepicts.golden.observed hev c)
    (hDepicts.faulty.observed hev c) (fun _ => hDepicts.golden.nextState hev c)
    (hDepicts.faulty.nextState hev c)).trans (or_congr_right (and_iff_right rfl))

/-- A model selects a latch whose flip can go unnoticed. -/
theorem exposed_of_mem (hAll : Candidates c all)
    (hOne : ∀ ρ ∈ e.models M, AtMostOne ρ (all.map Prod.snd)) (hρ : ρ ∈ differs.2.models M)
    (hProblem : ρ ∈ differs.1.models) :
    ∃ k ∈ all, Picks ρ (selection all) k.1.index ∧ Exposed c reserved 1 k.1.index := by
  have hFaulty := hDiffers.subset hρ
  have hGolden := hFlips.subset hFaulty
  have hPinned := hDiffers.valid.mem_pinned hρ
  obtain ⟨j, hPicks, hj⟩ := hAll.exists_picks (hOne ρ (hOpens.subset (hQuiets.subset hGolden)))
  have hPossible : Possible c all ⟨j, 0⟩ := hj.imp_right ge_of_eq
  have hDepicts := depicts_flipStep hOpens hQuiets hFlips hFaulty hPicks hPossible
  have hShown := (mem_models_differs_iff hOpens hQuiets hFlips hDiffers hρ hPicks hPossible
    rfl).mp hProblem
  rcases hj with hj | rfl
  · obtain ⟨k, hk, rfl⟩ := List.mem_map.mp hj
    refine ⟨k, hk, hPicks, exposed_one_iff.mpr ⟨_, _, ?_, ?_, ?_, ?_, hShown⟩⟩
    · exact (List.length_map _).trans (List.length_map _)
    · exact (List.length_map _).trans (List.length_map _)
    · exact (hDepicts.golden_alarm hPinned c).symm.trans (hQuiets.low ρ hGolden)
    · exact (hDepicts.faulty_alarm hPinned c).symm.trans (hFlips.low ρ hFaulty)
  · -- no latch is selected, so that the two runs are the same
    rw [Observation.agrees, Observation.converges, flipStep_of_length_le le_rfl] at hShown
    simp at hShown

/-- The flip of a latch that can be selected has a model if it can go unnoticed. -/
theorem exists_mem_of_exposed {k : Candidate} (hk : k ∈ all)
    (hSelectors : ∀ k ∈ all, k.2.var < e.nextVar) (hρ : ρ ∈ e.models M)
    (hPicks : Picks ρ (selection all) k.1.index) (hExposed : Exposed c reserved 1 k.1.index) :
    ∃ ρ' ∈ differs.2.models M, ρ' ∈ differs.1.models ∧ Picks ρ' (selection all) k.1.index := by
  obtain ⟨state, xs, hState, hInputs, hQuiet, hLow, hShown⟩ := exposed_one_iff.mp hExposed
  have hPossible : Possible c all ⟨k.1.index, 0⟩ := .inl (List.mem_map_of_mem hk)
  obtain ⟨ρ₁, hρ₁, hAgree₁, hStates⟩ := hOpens.reach ρ hρ state hState
  have hTable := hOpens.values ρ₁ hρ₁
  rw [hStates] at hTable
  obtain ⟨ρ₂, hρ₂, hAgree₂, hReads⟩ := hQuiets.lift ρ₁ hρ₁ _ hTable xs hInputs hQuiet
  have hGolden := hQuiets.values ρ₂ hρ₂ _ (hOpens.bounded.values_congr hAgree₂ hTable)
  rw [hReads] at hGolden
  have hPicks₂ := (hPicks.congr hAgree₁ (var_lt_of_mem_selection hSelectors)).congr hAgree₂
    (var_lt_of_mem_selection fun k hk => lt_of_lt_of_le (hSelectors k hk) hOpens.le)
  -- the latch is inverted after the step here, and before it in the replay
  have hFlipped := Table.alarm_congr (c := c)
    (Table.get_settle_flip_step (c := c) ((Table.initial c).setState c state) k.1.index xs)
  obtain ⟨ρ₃, hρ₃, hAgree₃⟩ := hFlips.lift ρ₂ hρ₂ _ _ hGolden hPicks₂ hPossible
    (hFlipped.trans hLow)
  obtain ⟨ρ₄, hρ₄, hAgree₄⟩ := hDiffers.lift ρ₃ hρ₃
  have hAgree := hAgree₃.trans (hAgree₄.mono hFlips.le)
  have hPicks₄ := hPicks₂.congr hAgree (var_lt_of_mem_selection fun k hk =>
    lt_of_lt_of_le (hSelectors k hk) (hOpens.le.trans hQuiets.le))
  have hStates₄ : (opened.1.state c).map (Lit.holds ρ₄) = state :=
    ((hAgree₂.trans (hAgree.mono hQuiets.le)).map_holds (hOpens.bounded.state c)).symm.trans hStates
  have hReads₄ : (golden.1.inputs c).map (Lit.holds ρ₄) = xs :=
    (hAgree.map_holds (hQuiets.bounded.map_read c.inputs)).symm.trans hReads
  exact ⟨ρ₄, hρ₄, (mem_models_differs_iff hOpens hQuiets hFlips hDiffers hρ₄ hPicks₄ hPossible
    (congr (congrArg _ hStates₄) hReads₄)).mpr hShown, hPicks₄⟩

end Runs

theorem tells_steps (h : e.Valid M) {u' : Unrolling} (hu : u.table.Below e.nextVar)
    (hu' : u'.table.Below e.nextVar) (n : Nat) :
    Encoder.TellsEither M e (u.observed c) (u'.observed c) true ((u.nextState c).take n)
      ((u'.nextState c).take n) (e.differsEither (u.observed c) (u'.observed c) true
        ((u.nextState c).take n) ((u'.nextState c).take n)) := by
  have hWidth : (u.nextState c).length = (u'.nextState c).length :=
    (List.length_map _).trans (List.length_map _).symm
  refine h.differsEither true ((List.length_map _).trans (List.length_map _).symm)
    (hu.map_read c.observed) (hu'.map_read c.observed) ?_
    (fun l hl => hu.nextState c l (List.mem_of_mem_take hl))
    (fun l hl => hu'.nextState c l (List.mem_of_mem_take hl))
  rw [List.length_take, List.length_take, hWidth]

/-- The golden step, then the faulty one, then the comparison. -/
theorem exists_runs (h : e.Valid M) (hAll : Candidates c all)
    (hSelectors : ∀ k ∈ all, k.2.var < e.nextVar) (n : Nat) :
    ∃ opened golden faulty, Opens c M e opened ∧ Quiets c M opened.1 opened.2 golden ∧
      Flips c M all golden.1 golden.2 faulty ∧
      Encoder.TellsEither M faulty.2 (golden.1.observed c) (faulty.1.observed c) true
        ((golden.1.nextState c).take n) ((faulty.1.nextState c).take n) (runs c all n e) := by
  have hOpens := opens_openState (c := c) h
  have hQuiets := quiets_quietStep (c := c) hOpens.valid hOpens.bounded
  have hLe := hOpens.le.trans hQuiets.le
  have hFlips := flips_faultyStep hQuiets.valid hQuiets.bounded hAll
    fun k hk => lt_of_lt_of_le (hSelectors k hk) hLe
  exact ⟨_, _, _, hOpens, hQuiets, hFlips,
    tells_steps hFlips.valid (hQuiets.bounded.mono hFlips.le) hFlips.bounded n⟩

/-- Nothing is said about variables that have not been handed out. -/
theorem below_runs (h : e.Valid M) (hAll : Candidates c all)
    (hSelectors : ∀ k ∈ all, k.2.var < e.nextVar) (n : Nat) :
    Cnf.Below (runs c all n e).2.nextVar ((runs c all n e).1 :: (runs c all n e).2.take.1) := by
  obtain ⟨_, _, _, -, -, -, hDiffers⟩ := exists_runs h hAll hSelectors n
  exact List.forall_mem_cons.mpr ⟨hDiffers.bounded, hDiffers.valid.below⟩

/-- The models of the encoded runs select the latches whose flip can go unnoticed. -/
structure Selects (c : Circuit) (reserved : Nat) (all : List Candidate) (N : Set Assignment) :
    Prop where
  subset_pinned : N ⊆ pinned
  sound : ∀ ρ ∈ N, ∃ k ∈ all, Picks ρ (selection all) k.1.index ∧ Exposed c reserved 1 k.1.index
  complete : ∀ k ∈ all, Exposed c reserved 1 k.1.index →
    ∃ ρ ∈ N, Picks ρ (selection all) k.1.index

theorem selects_encode (h : e.Valid M) (hAll : Candidates c all)
    (hSelectors : ∀ k ∈ all, k.2.var < e.nextVar)
    (hOne : ∀ ρ ∈ e.models M, AtMostOne ρ (all.map Prod.snd))
    (hSelect : ∀ k ∈ all, ∃ ρ ∈ e.models M, Picks ρ (selection all) k.1.index)
    {clauses : Cnf} {problem : Clause}
    (hEncode : encode c all (c.latches.length - reserved) e = (clauses, problem)) :
    Selects c reserved all (M ∩ Cnf.models clauses ∩ problem.models) := by
  obtain ⟨opened, golden, faulty, hOpens, hQuiets, hFlips, hDiffers⟩ :=
    exists_runs h hAll hSelectors (c.latches.length - reserved)
  rw [encode] at hEncode
  generalize runs c all (c.latches.length - reserved) e = differs at hDiffers hEncode
  cases hEncode
  refine ⟨fun ρ hρ => ?_, fun ρ hρ => ?_, fun k hk hExposed => ?_⟩
  · exact hDiffers.valid.mem_pinned hρ.1
  · exact exposed_of_mem hOpens hQuiets hFlips hDiffers hAll hOne hρ.1 hρ.2
  · obtain ⟨ρ, hρ, hPicks⟩ := hSelect k hk
    obtain ⟨ρ', hρ', hProblem, hPicks'⟩ := exists_mem_of_exposed hOpens hQuiets hFlips hDiffers hk
      hSelectors hρ hPicks hExposed
    exact ⟨ρ', ⟨hρ', hProblem⟩, hPicks'⟩

section Enumeration

variable {interest : List Lit} {N N' : Set Assignment} {xs : List (Clause × Component)}
  {ρ : Assignment} (hInterest : ∀ k ∈ all, k.2 ∈ interest)
include hInterest

theorem isTrue_selector (hρ : ρ ∈ pinned) : ∀ k ∈ all,
    Model.isTrue ⟨modelLits ρ interest⟩ k.2 = k.2.holds ρ :=
  fun k hk => isTrue_modelLits hρ (.inr (List.mem_map_of_mem (hInterest k hk)))

theorem read_of_picks (hAll : Candidates c all) (hρ : ρ ∈ pinned) {k : Candidate} (hk : k ∈ all)
    (hPicks : Picks ρ (selection all) k.1.index) :
    read all ⟨modelLits ρ interest⟩ = some ([-k.2], k.1) := by
  rw [read, hAll.find?_of_picks (isTrue_selector hInterest hρ) hk hPicks]
  rfl

/-- The enumeration finds the latches whose flip can go unnoticed. -/
theorem mem_enumerated_iff (hAll : Candidates c all) (h : Selects c reserved all N)
    (hEnumerates : Enumerates [] interest (read all) N xs N') {k : Candidate} (hk : k ∈ all) :
    k.1 ∈ xs.map Prod.snd ↔ Exposed c reserved 1 k.1.index := by
  -- what is read off a model is the latch that it selects
  have hReading : ∀ ρ ∈ N, ∃ k ∈ all, Exposed c reserved 1 k.1.index ∧
      read all ⟨modelLits ρ interest⟩ = some ([-k.2], k.1) := by
    intro ρ hρ
    obtain ⟨k, hk, hPicks, hExposed⟩ := h.sound ρ hρ
    exact ⟨k, hk, hExposed, read_of_picks hInterest hAll (h.subset_pinned hρ) hk hPicks⟩
  have hFound : ∀ x ∈ xs, ∃ k ∈ all, Exposed c reserved 1 k.1.index ∧ x = ([-k.2], k.1) := by
    intro x hx
    obtain ⟨ρ, hρ, _, hRead⟩ := hEnumerates.exists_of_mem hx
    obtain ⟨k, hk, hExposed, hRead'⟩ := hReading ρ hρ
    exact ⟨k, hk, hExposed, Option.some.inj (hRead.symm.trans hRead')⟩
  constructor
  · intro hMem
    obtain ⟨x, hx, hEq⟩ := List.mem_map.mp hMem
    obtain ⟨k', _, hExposed, rfl⟩ := hFound x hx
    rw [← hEq]
    exact hExposed
  · intro hExposed
    by_contra hNot
    obtain ⟨ρ, hρ, hPicks⟩ := h.complete k hk hExposed
    have hLeft : ρ ∈ N' := by
      refine (hEnumerates.mem_iff ρ).mpr ⟨hρ, fun x hx => ?_⟩
      obtain ⟨k', hk', _, rfl⟩ := hFound x hx
      refine Clause.mem_models.mpr ⟨-k'.2, List.mem_singleton_self _, ?_⟩
      rw [Lit.holds_neg, hPicks.holds hk', Bool.not_eq_true', decide_eq_false_iff_not]
      intro hIndex
      rw [hAll.eq_of_index hk' hk hIndex] at hx
      exact hNot (List.mem_map_of_mem (f := Prod.snd) hx)
    refine hEnumerates.not_meets (fun ρ hρ _ hNone => ?_) ρ hLeft (List.forall_mem_nil _)
    obtain ⟨k, _, _, hRead⟩ := hReading ρ hρ
    rw [hNone] at hRead
    cases hRead

/-- A reading excludes the selector of its latch. -/
theorem exists_of_read (hρ : ρ ∈ pinned) {block : Clause} {x : Component}
    (hRead : read all ⟨modelLits ρ interest⟩ = some (block, x)) :
    ∃ l ∈ all.map Prod.snd, block = [-l] ∧ l.holds ρ = true := by
  obtain ⟨k, hFind, hEq⟩ := Option.map_eq_some_iff.mp hRead
  cases hEq
  obtain ⟨hMem, hHolds⟩ := holds_of_find? hInterest hρ hFind
  exact ⟨k.2, hMem, rfl, hHolds⟩

end Enumeration

section Session

variable {checked : List Component} {selectors : List Lit} {clauses : Cnf} {problem : Clause}
  (hLatch : ∀ x ∈ checked, ∃ l, c.latches[x.index]? = some l ∧ x.signal = l.signal)
  (hNodup : (checked.map Component.index).Nodup)
  (hFresh : Encoder.caching.freshList checked.length = (selectors, e))

include hFresh in
theorem length_selectors : selectors.length = checked.length := by
  cases hFresh
  exact VarPool.initial.length_freshList _

include hFresh in
theorem var_lt_selectors : ∀ l ∈ selectors, l.var < e.nextVar := by
  cases hFresh
  exact fun l hl => (OneHot.var_lt_of_mem_freshList hl).2

include hFresh in
theorem constrains_selectors :
    Encoder.Constrains pinned e (e.atMostOne selectors) {ρ | AtMostOne ρ selectors} := by
  have hValid : e.Valid pinned := by
    cases hFresh
    exact Encoder.valid_empty rfl fun _ hSome => (Option.some.inj hSome).symm
  exact hValid.atMostOne (var_lt_selectors hFresh)

include hLatch hNodup hFresh

theorem below_search (n : Nat) :
    Cnf.Below (runs c (checked.zip selectors) n (e.atMostOne selectors)).2.nextVar
      ((runs c (checked.zip selectors) n (e.atMostOne selectors)).1 ::
        (runs c (checked.zip selectors) n (e.atMostOne selectors)).2.take.1) := by
  have hConstrains := constrains_selectors hFresh
  refine below_runs hConstrains.valid
    (candidates_zip hLatch hNodup (length_selectors hFresh).symm) (fun k hk => ?_) n
  exact lt_of_lt_of_le (var_lt_selectors hFresh k.2 (List.of_mem_zip hk).2) hConstrains.le

theorem selects_search
    (hEncode : encode c (checked.zip selectors) (c.latches.length - reserved)
      (e.atMostOne selectors) = (clauses, problem)) :
    Selects c reserved (checked.zip selectors)
      (pinned ∩ Cnf.models clauses ∩ problem.models) := by
  have hLength := length_selectors hFresh
  have hAll : Candidates c (checked.zip selectors) := candidates_zip hLatch hNodup hLength.symm
  have hSnd : (checked.zip selectors).map Prod.snd = selectors := List.map_snd_zip hLength.le
  have hSelect : ∀ k ∈ checked.zip selectors, ∃ ρ ∈ e.models pinned,
      Picks ρ (selection (checked.zip selectors)) k.1.index := by
    intro k hk
    cases hFresh
    obtain ⟨ρ, hρ, hPicks⟩ := exists_selecting hNodup hk
    refine ⟨ρ, ?_, hPicks⟩
    rw [Encoder.models_eq_of_pending rfl]
    exact hρ
  have hConstrains := constrains_selectors hFresh
  have hSelectors : ∀ k ∈ checked.zip selectors, k.2.var < e.nextVar :=
    fun k hk => var_lt_selectors hFresh k.2 (List.of_mem_zip hk).2
  refine selects_encode hConstrains.valid hAll
    (fun k hk => lt_of_lt_of_le (hSelectors k hk) hConstrains.le) (fun ρ hρ => ?_)
    (fun k hk => ?_) hEncode
  · exact hSnd.symm ▸ (hConstrains.subset hρ).2
  · obtain ⟨ρ, hρ, hPicks⟩ := hSelect k hk
    obtain ⟨ρ', hρ', hAgree⟩ := hConstrains.lift ρ ⟨hρ, hSnd ▸ hAll.atMostOne_of_picks hPicks⟩
    exact ⟨ρ', hρ', hPicks.congr hAgree (var_lt_of_mem_selection hSelectors)⟩

omit hFresh

variable {σ : Type} [DecisionProcedure σ] [ExactProcedure σ] {found : List Component} {s s' : σ}

theorem mem_search (h : Returns (search c checked (c.latches.length - reserved)) s found s')
    (x : Component) : x ∈ found ↔ x ∈ checked ∧ ¬ Exposed c reserved 1 x.index := by
  rw [search] at h
  cases hFresh : Encoder.caching.freshList checked.length with
  | mk selectors e =>
  cases hEncode : encode c (checked.zip selectors) (c.latches.length - reserved)
    (e.atMostOne selectors) with
  | mk clauses problem =>
  simp only [hFresh, hEncode] at h
  obtain ⟨_, s₁, hStart, h⟩ := returns_bind.mp h
  obtain ⟨_, s₂, hTop, h⟩ := returns_bind.mp h
  obtain ⟨_, s₃, hClauses, h⟩ := returns_bind.mp h
  obtain ⟨_, s₄, hProblem, h⟩ := returns_bind.mp h
  obtain ⟨exposed, s₅, hEnumerate, h⟩ := returns_bind.mp h
  obtain ⟨_, s₆, -, h⟩ := returns_bind.mp h
  obtain ⟨rfl, -⟩ := returns_pure.mp h
  have hs₃ := frames_addCnf (frames_opened hStart hTop) hClauses
  have hs₄ := frames_addFolded hs₃ Set.inter_subset_left hProblem
  obtain ⟨xs, N, hEnumerates, rfl, -⟩ := enumerate_returns hs₄ hEnumerate
  have hLength := length_selectors hFresh
  rw [List.mem_filter, decide_eq_true_eq]
  refine and_congr_right fun hx => not_congr ?_
  rw [← List.map_fst_zip hLength.ge] at hx
  obtain ⟨k, hk, rfl⟩ := List.mem_map.mp hx
  exact mem_enumerated_iff (fun k hk => (List.of_mem_zip hk).2)
    (candidates_zip hLatch hNodup hLength.symm) (selects_search hLatch hNodup hFresh hEncode)
    hEnumerates hk

omit hLatch hNodup in
theorem yields_search {Ready : Bool → σ → Prop} (hAnswers : Answering (fun _ => True) Ready)
    {nested : Bool} (hs : Ready nested s) (compared : Nat) :
    Yields (search c checked compared) s fun _ _ => True := by
  rw [search]
  cases Encoder.caching.freshList checked.length with
  | mk selectors e =>
  refine (hAnswers.yields_start hs selectors false).bind fun _ _ hs₁ => ?_
  refine (hAnswers.yields_addTop hs₁).bind fun _ _ hs₂ => ?_
  cases encode c (checked.zip selectors) compared (e.atMostOne selectors) with
  | mk clauses problem =>
  refine (hAnswers.yields_addCnf hs₂ clauses).bind fun _ _ hs₃ => ?_
  refine (hAnswers.yields_addFolded hs₃ Set.inter_subset_left problem).bind fun _ _ hs₄ => ?_
  have hRead : ∀ ρ ∈ pinned, ∀ block x,
      read (checked.zip selectors) ⟨modelLits ρ selectors⟩ = some (block, x) →
        ∃ l ∈ (checked.zip selectors).map Prod.snd, block = [-l] ∧ l.holds ρ = true :=
    fun ρ hρ block x => exists_of_read (fun k hk => (List.of_mem_zip hk).2) hρ
  refine (hAnswers.yields_enumerate hRead hs₄ (Set.inter_subset_left.trans Set.inter_subset_left)
    (List.length_map _).le).bind fun _ s₅ _ => ?_
  exact (yields_finish s₅).bind fun _ _ _ => yields_pure trivial

end Session

end SoftError.Protection.OneStep

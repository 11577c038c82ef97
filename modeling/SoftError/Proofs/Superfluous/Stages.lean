import SoftError.Proofs.Fault.Injection
import SoftError.Proofs.Superfluous.Harmless

/-!
# The parts of a step

A step of the search encodes the golden run, a flip of the faulty run unless that is settled
already, and the environment. Its clauses compare the outputs that matter, restrict the inputs
and compare the states, the latter unless the check is switched off.
-/

namespace SoftError.Superfluous

section Clauses

variable {ρ : Assignment} {golden faulty : List Lit}

theorem mem_models_agreement {guards : List Lit} (hLength : golden.length = faulty.length) :
    ρ ∈ Cnf.models (agreement guards golden faulty) ↔
      ∀ j : Nat, (guards.map (Lit.holds ρ))[j]? = some true →
        (golden.map (Lit.holds ρ))[j]? = (faulty.map (Lit.holds ρ))[j]? := by
  induction guards generalizing golden faulty with
  | nil => simp [agreement, Cnf.mem_models]
  | cons g guards ih =>
    obtain _ | ⟨a, golden⟩ := golden
    · obtain rfl := List.length_eq_zero_iff.mp hLength.symm
      simp [agreement, Cnf.mem_models]
    obtain _ | ⟨b, faulty⟩ := faulty
    · cases hLength
    have hHead : ρ ∈ Clause.models [-g, -a, b] ∧ ρ ∈ Clause.models [-g, a, -b] ↔
        (g.holds ρ = true → a.holds ρ = b.holds ρ) := by
      simp only [Clause.mem_models, List.mem_cons, List.not_mem_nil, or_false, exists_eq_or_imp,
        exists_eq_left, Lit.holds_neg]
      cases g.holds ρ <;> cases a.holds ρ <;> cases b.holds ρ <;> decide
    rw [agreement, Cnf.mem_models_cons, Cnf.mem_models_cons, ← and_assoc, hHead,
      ih (Nat.succ.inj hLength)]
    constructor
    · rintro ⟨hFirst, hRest⟩ j
      cases j with
      | zero => simpa using hFirst
      | succ j => simpa using hRest j
    · intro h
      exact ⟨by simpa using h 0, fun j => by simpa using h (j + 1)⟩

theorem convergence_cons (off a b : Lit) (golden faulty : List Lit) :
    convergence off (a :: golden) (b :: faulty) =
      if a.isConstant then
        ((if a = .top then b else -b) :: (convergence off golden faulty).1,
          (convergence off golden faulty).2)
      else ((convergence off golden faulty).1,
        [off, -a, b] :: [off, a, -b] :: (convergence off golden faulty).2) := rfl

theorem mem_models_convergence_of_off {off : Lit} (hOff : off.holds ρ = true) :
    ρ ∈ Cnf.models (convergence off golden faulty).2 := by
  induction golden generalizing faulty with
  | nil => exact rfl
  | cons a golden ih =>
    obtain _ | ⟨b, faulty⟩ := faulty
    · exact rfl
    have hRest : ρ ∈ Cnf.models (convergence off golden faulty).2 := ih
    rw [convergence_cons]
    split
    · exact hRest
    · rw [Cnf.mem_models_cons, Cnf.mem_models_cons]
      exact ⟨Clause.mem_models.mpr ⟨off, List.mem_cons_self, hOff⟩,
        Clause.mem_models.mpr ⟨off, List.mem_cons_self, hOff⟩, hRest⟩

/-- Constant golden values are compared by the assumptions, the others by the clauses. -/
theorem convergence_iff {off : Lit} (hρ : ρ ∈ pinned) (hOff : off.holds ρ = false)
    (hLength : golden.length = faulty.length) :
    Meets ρ (convergence off golden faulty).1 ∧
        ρ ∈ Cnf.models (convergence off golden faulty).2 ↔
      golden.map (Lit.holds ρ) = faulty.map (Lit.holds ρ) := by
  induction golden generalizing faulty with
  | nil =>
    obtain rfl := List.length_eq_zero_iff.mp hLength.symm
    simp [convergence, Meets, Cnf.mem_models]
  | cons a golden ih =>
    obtain _ | ⟨b, faulty⟩ := faulty
    · cases hLength
    have hRest := ih (Nat.succ.inj hLength)
    rw [convergence_cons, List.map_cons, List.map_cons, List.cons.injEq, ← hRest]
    cases hConstant : a.isConstant with
    | true =>
      rw [if_pos rfl, Meets, List.forall_mem_cons, and_assoc]
      refine and_congr_left fun _ => ?_
      rcases (Lit.isConstant_iff a).mp hConstant with rfl | rfl
      · rw [if_neg (by decide), Lit.holds_neg, holds_bot hρ]
        cases b.holds ρ <;> decide
      · rw [if_pos rfl, holds_top hρ]
        exact eq_comm
    | false =>
      rw [if_neg Bool.false_ne_true, Cnf.mem_models_cons, Cnf.mem_models_cons]
      simp only [Clause.mem_models, List.mem_cons, List.not_mem_nil, or_false, exists_eq_or_imp,
        exists_eq_left, Lit.holds_neg, hOff]
      cases a.holds ρ <;> cases b.holds ρ <;> simp

theorem mem_models_constraint {p : Problem} {relevant : Option (List Lit)} :
    ρ ∈ Cnf.models (constraint p relevant) ↔
      p.Allows (relevant.map fun ls => ls.map (Lit.holds ρ)) := by
  rw [Problem.Allows]
  cases relevant with
  | none => simp [constraint, Cnf.mem_models]
  | some ls =>
    rw [constraint]
    simp only [Option.map_some, Option.some.injEq, forall_eq', List.length_map, List.getLast?_map,
      Option.map_eq_some_iff]
    split
    · rename_i h
      simp only [Bool.and_eq_true, decide_eq_true_eq] at h
      cases ls.getLast? <;> simp [Cnf.mem_models, Clause.mem_models, h]
    · rename_i h
      refine iff_of_true rfl fun hFree hLength => absurd ?_ h
      rw [hFree, decide_eq_true hLength]
      rfl

variable {n : Nat}

theorem below_agreement {guards : List Lit} (hGuards : ∀ l ∈ guards, l.var < n)
    (hGolden : ∀ l ∈ golden, l.var < n) (hFaulty : ∀ l ∈ faulty, l.var < n) :
    Cnf.Below n (agreement guards golden faulty) := by
  induction guards generalizing golden faulty with
  | nil => exact List.forall_mem_nil _
  | cons g guards ih =>
    obtain _ | ⟨a, golden⟩ := golden
    · exact List.forall_mem_nil _
    obtain _ | ⟨b, faulty⟩ := faulty
    · exact List.forall_mem_nil _
    obtain ⟨hg, hGuards⟩ := List.forall_mem_cons.mp hGuards
    obtain ⟨ha, hGolden⟩ := List.forall_mem_cons.mp hGolden
    obtain ⟨hb, hFaulty⟩ := List.forall_mem_cons.mp hFaulty
    refine List.forall_mem_cons.mpr ⟨?_, List.forall_mem_cons.mpr ⟨?_, ih hGuards hGolden hFaulty⟩⟩
    · simp [hg, ha, hb]
    · simp [hg, ha, hb]

theorem below_convergence {off : Lit} (hOff : off.var < n) (hGolden : ∀ l ∈ golden, l.var < n)
    (hFaulty : ∀ l ∈ faulty, l.var < n) : Cnf.Below n (convergence off golden faulty).2 := by
  induction golden generalizing faulty with
  | nil => exact List.forall_mem_nil _
  | cons a golden ih =>
    obtain _ | ⟨b, faulty⟩ := faulty
    · exact List.forall_mem_nil _
    obtain ⟨ha, hGolden⟩ := List.forall_mem_cons.mp hGolden
    obtain ⟨hb, hFaulty⟩ := List.forall_mem_cons.mp hFaulty
    have hRest := ih hGolden hFaulty
    rw [convergence_cons]
    split
    · exact hRest
    · refine List.forall_mem_cons.mpr ⟨?_, List.forall_mem_cons.mpr ⟨?_, hRest⟩⟩
      · simp [hOff, ha, hb]
      · simp [hOff, ha, hb]

theorem below_constraint {p : Problem} {relevant : Option (List Lit)}
    (h : ∀ ls, relevant = some ls → ∀ l ∈ ls, l.var < n) :
    Cnf.Below n (constraint p relevant) := by
  cases relevant with
  | none => exact List.forall_mem_nil _
  | some ls =>
    rw [constraint]
    split
    · intro d hd k hk
      obtain ⟨l, hl, rfl⟩ := List.mem_map.mp hd
      rw [List.mem_singleton.mp hk]
      exact h ls rfl l (List.mem_of_getLast? (Option.mem_toList.mp hl))
    · exact List.forall_mem_nil _

end Clauses

namespace Location

/-- The assignment selects the latch. A latch that does not exist stands for none. -/
def Selects (c : Circuit) (ρ : Assignment) : Location → Nat → Prop
  | fixed k, j => j = k.index
  | selected all, j => Picks ρ (selection all) j ∧
      (j ∈ all.map (fun k => k.1.index) ∨ c.latches.length ≤ j)

def Fits (c : Circuit) : Location → Prop
  | fixed k => ∃ l, c.latches[k.index]? = some l ∧ k.signal = l.signal
  | selected all => Candidates c all

theorem Selects.congr {c : Circuit} {location : Location} {ρ ρ' : Assignment} {j n : Nat}
    (h : location.Selects c ρ j) (hAgree : AgreeBelow n ρ ρ')
    (hSelectors : ∀ l ∈ location.selectors, l.var < n) : location.Selects c ρ' j := by
  cases location with
  | fixed k => exact h
  | selected all =>
    refine ⟨h.1.congr hAgree (var_lt_of_mem_selection fun k hk => ?_), h.2⟩
    exact hSelectors k.2 (List.mem_map_of_mem hk)

end Location

theorem inject_eq (c : Circuit) (flip : Lit) (ks : List Candidate) (u : Unrolling) (e : Encoder) :
    inject c flip ks u e = Vulnerability.Incremental.inject c flip ks u e := by
  induction ks generalizing u e with
  | nil => rfl
  | cons k ks ih => exact ih _ _

section Inject

variable {c : Circuit} {M : Set Assignment} {e : Encoder} {u : Unrolling} {location : Location}

/-- A flip at the selected latch. -/
theorem strikes_flipAt {earlier : List Lit} (h : e.Valid M) (hu : u.table.Below e.nextVar)
    (hEarlier : ∀ l ∈ earlier, l.var < e.nextVar)
    (hSelectors : ∀ l ∈ location.selectors, l.var < e.nextVar) (hFits : location.Fits c)
    {flip : Lit} {u' : Unrolling} {e' : Encoder}
    (hEq : flipAt c location earlier u e = (flip, u', e')) :
    ∃ move, Unrolling.Strikes c M e u.table earlier flip
        ((u'.step c e').1.table, (u'.step c e').2) move ∧
      ∀ ρ j t, location.Selects c ρ j → move ρ t = if flip.holds ρ then t.flip c j else t := by
  have hBelow : u.table.Below e.fresh.2.nextVar := hu.mono (Nat.le_succ _)
  have hFlip : e.fresh.1.var < e.fresh.2.nextVar := e.var_fresh.trans_lt (Nat.lt_succ_self _)
  cases location with
  | fixed k =>
    obtain ⟨latch, hLatch, hSignal⟩ := hFits
    have hMove := Unrolling.performs_flip hLatch hSignal hBelow
      (h.fresh.flip (hBelow.read k.signal) hFlip)
    cases hEq
    refine ⟨_, hMove.strikes h hEarlier, ?_⟩
    rintro ρ j t rfl
    rfl
  | selected all =>
    have hMove := Unrolling.performs_inject h.fresh hBelow hFlip
      (fun k hk => Nat.lt_succ_of_lt (hSelectors k.2 (List.mem_map_of_mem hk))) hFits.latch
    rw [← inject_eq] at hMove
    cases hEq
    refine ⟨_, hMove.strikes h hEarlier, ?_⟩
    rintro ρ j t ⟨hPicks, hj⟩
    exact foldl_flip_of_picks hFits.distinct hPicks hj t

/-- The next step of the faulty run, with a flip unless that is settled. -/
def faultyStage (c : Circuit) (location : Location) (time : Nat) (flips : List (Nat × Lit))
    (isOpen : Bool) (u : Unrolling) (e : Encoder) : List (Nat × Lit) × Unrolling × Encoder :=
  let (flips, u, e) :=
    if isOpen then
      let (flip, u, e) := flipAt c location (flips.map Prod.snd) u e
      (flips ++ [(time, flip)], u, e)
    else (flips, u, e)
  (flips, u.step c e)

/-- A flip at that time is not settled, as long as the next step is step `n`. -/
def Pending (flips : List (Nat × Lit)) (n time : Nat) : Prop :=
  time ∈ flips.map Prod.fst ∨ n ≤ time

/-- The next step of the faulty run is that of the fault picked. -/
structure Injects (c : Circuit) (M : Set Assignment) (location : Location) (time : Nat)
    (flips : List (Nat × Lit)) (T : Table Lit) (e : Encoder) (flips' : List (Nat × Lit))
    (T' : Table Lit) (e' : Encoder) : Prop where
  valid : e'.Valid M
  le : e.nextVar ≤ e'.nextVar
  bounded : T'.Below e'.nextVar
  subset : e'.models M ⊆ e.models M
  grown : flips' = flips ∨ ∃ flip : Lit, flips' = flips ++ [(time, flip)] ∧ flip.var < e'.nextVar
  atMostOnce : ∀ ρ ∈ e'.models M, AtMostOne ρ (flips.map Prod.snd) →
    AtMostOne ρ (flips'.map Prod.snd)
  values : ∀ ρ ∈ e'.models M, ∀ f : Fault, location.Selects c ρ f.latch →
    Picks ρ flips' f.time → Pending flips' (time + 1) f.time → ∀ t, T.Values (Lit.holds ρ) t →
    T'.Values (Lit.holds ρ) ((if decide (time = f.time) then t.flip c f.latch else t).settle c)
  lift : ∀ ρ ∈ e.models M, ∀ j, Picks ρ flips j →
    ∃ ρ' ∈ e'.models M, AgreeBelow e.nextVar ρ ρ' ∧ Picks ρ' flips' j

theorem injects_faultyStage {time : Nat} {flips : List (Nat × Lit)} (h : e.Valid M)
    (hu : u.table.Below e.nextVar) (hFlips : ∀ x ∈ flips, x.2.var < e.nextVar)
    (hTimes : ∀ x ∈ flips, x.1 < time)
    (hSelectors : ∀ l ∈ location.selectors, l.var < e.nextVar) (hFits : location.Fits c)
    (isOpen : Bool) {flips' : List (Nat × Lit)} {u' : Unrolling} {e' : Encoder}
    (hEq : faultyStage c location time flips isOpen u e = (flips', u', e')) :
    Injects c M location time flips u.table e flips' u'.table e' := by
  cases isOpen with
  | false =>
    have hStep := Unrolling.performs_step (c := c) h hu
    cases hEq
    refine ⟨hStep.valid, hStep.le, hStep.bounded, hStep.subset, .inl rfl, fun _ _ => id, ?_, ?_⟩
    · intro ρ hρ f _ _ hPending t ht
      have hTime : ¬ time = f.time := by
        rintro rfl
        rcases hPending with hMem | hLe
        · obtain ⟨x, hx, hEq⟩ := List.mem_map.mp hMem
          exact Nat.ne_of_lt (hTimes x hx) hEq
        · exact Nat.not_succ_le_self _ hLe
      rw [decide_eq_false hTime]
      exact hStep.values ρ hρ t ht
    · intro ρ hρ j hPicks
      obtain ⟨ρ', hρ', hAgree⟩ := hStep.lift ρ hρ
      exact ⟨ρ', hρ', hAgree, hPicks.congr hAgree hFlips⟩
  | true =>
    obtain ⟨flip, u₁, e₁, hFlip⟩ :
        ∃ flip u₁ e₁, flipAt c location (flips.map Prod.snd) u e = (flip, u₁, e₁) := ⟨_, _, _, rfl⟩
    have hEarlier : ∀ l ∈ flips.map Prod.snd, l.var < e.nextVar := List.forall_mem_map.mpr hFlips
    obtain ⟨move, hStrikes, hMove⟩ := strikes_flipAt h hu hEarlier hSelectors hFits hFlip
    rw [faultyStage, if_pos rfl, hFlip] at hEq
    cases hEq
    refine ⟨hStrikes.valid, hStrikes.lt.le, hStrikes.bounded, hStrikes.subset,
      .inr ⟨flip, rfl, hStrikes.flipBelow⟩, ?_, ?_, ?_⟩
    · intro ρ hρ hOnce
      rw [List.map_append, AtMostOne, List.pairwise_append]
      refine ⟨hOnce, List.pairwise_singleton _ _, fun l hl l' hl' => ?_⟩
      rw [List.mem_singleton.mp hl', and_comm]
      exact hStrikes.exclusive ρ hρ l hl
    · intro ρ hρ f hSelects hPicks _ t ht
      have hHolds := picks_singleton.mp (picks_append.mp hPicks).2
      have hValues := hStrikes.values ρ hρ t ht
      rwa [hMove ρ f.latch t hSelects, hHolds] at hValues
    · intro ρ hρ j hPicks
      obtain ⟨ρ', hρ', hAgree, hHolds⟩ :=
          hStrikes.lift ρ hρ (decide (time = j)) fun hTime l hl => by
        obtain ⟨x, hx, rfl⟩ := List.mem_map.mp hl
        have hNe : x.1 ≠ j := of_decide_eq_true hTime ▸ Nat.ne_of_lt (hTimes x hx)
        rw [hPicks x hx, decide_eq_false hNe]
      exact ⟨ρ', hρ', hAgree,
        picks_append.mpr ⟨hPicks.congr hAgree hFlips, picks_singleton.mpr hHolds⟩⟩

end Inject

section Environment

variable (p : Problem)

/-- The run of the environment, if there is one, has the values of the given table. -/
def Reads (ρ : Assignment) (u : Option Unrolling) (t : Circuit → Table Bool) : Prop :=
  Option.Rel (fun u env => u.table.Values (Lit.holds ρ) (t env)) u p.environment

/-- The next step of the environment, and what it says. -/
structure Judges (M : Set Assignment) (feed : List Lit) (u : Option Unrolling) (e : Encoder)
    (relevant : Option (List Lit)) (u' : Option Unrolling) (e' : Encoder) : Prop
    extends Encoder.Extends M e e' where
  bounded : ∀ v ∈ u', v.table.Below e'.nextVar
  relevantBelow : ∀ ls ∈ relevant, ∀ l ∈ ls, l.var < e'.nextVar
  values : ∀ ρ ∈ e'.models M, ∀ t, Reads p ρ u t →
    Reads p ρ u' (fun env => (t env).step env (feed.map (Lit.holds ρ))) ∧
      relevant.map (fun ls => ls.map (Lit.holds ρ)) =
        p.environment.map fun env => ((t env).step env (feed.map (Lit.holds ρ))).outputs env

variable {p} {M : Set Assignment} {feed : List Lit} {u u' : Option Unrolling} {e e' : Encoder}
  {relevant : Option (List Lit)}

theorem Reads.advance {ρ : Assignment} {t : Circuit → Table Bool} (h : Reads p ρ u t)
    (hρ : ρ ∈ pinned) :
    Reads p ρ (match p.environment with
      | some env => u.map (·.advance env)
      | none => none) fun env => (t env).advance env := by
  cases hEnv : p.environment with
  | none =>
    rw [Reads, hEnv]
    exact .none
  | some env =>
    rw [Reads, hEnv] at h ⊢
    cases h with
    | some hValues => exact .some (hValues.advance (evaluation_holds hρ) env)

theorem judges_stepEnvironment (h : e.Valid M) (hu : ∀ v ∈ u, v.table.Below e.nextVar)
    (hFeed : ∀ l ∈ feed, l.var < e.nextVar)
    (hEq : stepEnvironment p feed u e = ((relevant, u'), e')) :
    Judges p M feed u e relevant u' e' := by
  cases hEnv : p.environment with
  | none =>
    simp only [stepEnvironment, hEnv] at hEq
    cases hEq
    refine ⟨.refl h, by simp, by simp, fun ρ _ t _ => ⟨?_, ?_⟩⟩
    · rw [Reads, hEnv]
      exact .none
    · rw [hEnv]
      rfl
  | some env =>
    cases u with
    | none =>
      simp only [stepEnvironment, hEnv] at hEq
      cases hEq
      refine ⟨.refl h, by simp, by simp, fun ρ _ t hReads => ?_⟩
      rw [Reads, hEnv] at hReads
      cases hReads
    | some v =>
      have hStep := Unrolling.performs_step (c := env) (u := v.setInputs env feed) h
        ((hu v rfl).setAll env.inputs hFeed)
      simp only [stepEnvironment, hEnv] at hEq
      cases hEq
      refine ⟨hStep.toExtends, ?_, ?_, fun ρ hρ t hReads => ?_⟩
      · rintro w ⟨⟩
        exact hStep.bounded
      · rintro ls ⟨⟩
        exact hStep.bounded.map_read _
      · rw [Reads, hEnv] at hReads
        cases hReads with
        | some hValues =>
          have hNext := hStep.values ρ hρ _ (hValues.setAll env.inputs feed)
          refine ⟨?_, ?_⟩
          · rw [Reads, hEnv]
            exact .some hNext
          · rw [hEnv, Option.map_some, Option.map_some]
            exact congrArg some
              (hNext.outputs (evaluation_holds (hStep.valid.mem_pinned hρ)) env)

end Environment

/-- The clauses on the outputs of a step and on the environment. -/
def outputChecks (p : Problem) (relevant : Option (List Lit)) (golden faulty : Unrolling) :
    List Clause :=
  agreement (relevant.getD ((golden.observed p.circuit).map fun _ => Lit.top))
    (golden.observed p.circuit) (faulty.observed p.circuit) ++ constraint p relevant

/-- The states that are compared, the golden one first. -/
def stateChecks (p : Problem) (off : Lit) (golden faulty : Unrolling) : List Lit × List Clause :=
  convergence off ((golden.nextState p.circuit).take p.compared)
    ((faulty.nextState p.circuit).take p.compared)

section Checks

variable {p : Problem} {ρ : Assignment} {golden faulty : Unrolling} {o : Observation}
  {relevant : Option (List Lit)}

theorem mem_models_outputChecks (hρ : ρ ∈ pinned) (h : Depicts ρ golden.table faulty.table o) :
    ρ ∈ Cnf.models (outputChecks p relevant golden faulty) ↔
      (∀ j, Matters (relevant.map fun ls => ls.map (Lit.holds ρ)) j →
        (o.golden.observed p.circuit)[j]? = (o.faulty.observed p.circuit)[j]?) ∧
      p.Allows (relevant.map fun ls => ls.map (Lit.holds ρ)) := by
  have hev := evaluation_holds hρ
  have hGolden : (golden.observed p.circuit).map (Lit.holds ρ) = o.golden.observed p.circuit :=
    h.golden.observed hev p.circuit
  have hFaulty : (faulty.observed p.circuit).map (Lit.holds ρ) = o.faulty.observed p.circuit :=
    h.faulty.observed hev p.circuit
  have hLength : (golden.observed p.circuit).length = (faulty.observed p.circuit).length :=
    (Table.length_observed p.circuit _).trans (Table.length_observed p.circuit _).symm
  rw [outputChecks, Cnf.mem_models_append, mem_models_agreement hLength, mem_models_constraint,
    hGolden, hFaulty]
  refine and_congr_left fun _ => forall_congr' fun j => ?_
  cases relevant with
  | some ls => simp [Matters]
  | none =>
    refine ⟨fun hTrue _ => ?_, fun hAll _ => hAll (by simp [Matters])⟩
    by_cases hj : j < (golden.observed p.circuit).length
    · refine hTrue ?_
      simp [hj, holds_top hρ]
    · have hLeft : (o.golden.observed p.circuit).length ≤ j := by
        rw [← hGolden, List.length_map]
        omega
      have hRight : (o.faulty.observed p.circuit).length ≤ j := by
        rw [← hFaulty, List.length_map]
        omega
      rw [List.getElem?_eq_none hLeft, List.getElem?_eq_none hRight]

theorem stateChecks_iff {off : Lit} (hρ : ρ ∈ pinned) (hOff : off.holds ρ = false)
    (h : Depicts ρ golden.table faulty.table o) :
    Meets ρ (stateChecks p off golden faulty).1 ∧
        ρ ∈ Cnf.models (stateChecks p off golden faulty).2 ↔
      o.converges p.circuit p.reserved = true := by
  have hev := evaluation_holds hρ
  have hGolden : (golden.nextState p.circuit).map (Lit.holds ρ) = o.golden.nextState p.circuit :=
    h.golden.nextState hev p.circuit
  have hFaulty : (faulty.nextState p.circuit).map (Lit.holds ρ) = o.faulty.nextState p.circuit :=
    h.faulty.nextState hev p.circuit
  have hLength : ((golden.nextState p.circuit).take p.compared).length =
      ((faulty.nextState p.circuit).take p.compared).length := by
    rw [List.length_take, List.length_take]
    exact congrArg _ ((Table.length_nextState p.circuit _).trans
      (Table.length_nextState p.circuit _).symm)
  rw [stateChecks, convergence_iff hρ hOff hLength, List.map_take, List.map_take, hGolden, hFaulty,
    Observation.converges, decide_eq_true_eq]
  rfl

end Checks

end SoftError.Superfluous

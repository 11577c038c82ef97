import SoftError.Proofs.Fault.Injection
import SoftError.Proofs.Vulnerability.DiagrammaticNames
import SoftError.Proofs.Vulnerability.Traces

/-!
# A step of the search by decision diagrams

Under an assignment that names a fault, the tables of diagrams have the values of its replay.
So the diagram of a step is satisfied by the assignments whose fault shows its first error there.
-/

namespace SoftError

namespace Table

/-- The inputs are definite if all of them have been set. -/
theorem setLevels_eq_ok {ss : List Signal} {xs : List Level} {t t' : Table Diagram} {u : Unit}
    (hLength : xs.length = ss.length)
    (h : t.setLevels ((ss.map Signal.var).zip xs) = (.ok u, t')) :
    t' = t.setAll ss (xs.map fun x => .leaf x.toBool) := by
  induction ss generalizing xs t with
  | nil =>
    cases h
    rfl
  | cons s ss ih =>
    obtain _ | ⟨x, xs⟩ := xs
    · cases hLength
    rw [List.map_cons, List.zip_cons_cons, setLevels] at h
    split at h
    · cases h
    · rename_i b hDefinite
      have hBool : x.toBool = b := by rw [Level.toBool, hDefinite, Option.getD_some]
      rw [List.map_cons, setAll, hBool]
      exact ih (Nat.succ.inj hLength) h

end Table

namespace Vulnerability.Diagrammatic

variable {c : Circuit} {all remaining : List Candidate} {ρ : Assignment} {f : Fault}
  {inputs : List (List Bool)} {xs : List Bool} {r r' : Runs}

/-- The runs have the values of every fault that an assignment can name. -/
structure Tracks (c : Circuit) (all remaining : List Candidate) (inputs : List (List Bool))
    (r : Runs) : Prop where
  golden : r.golden = c.run inputs
  faulty : ∀ ρ f, Names all inputs.length ρ f → Possible c remaining f →
    r.faulty.Values (Diagram.eval ρ) (f.run c inputs).2
  quiet : ∀ ρ f, Names all inputs.length ρ f → Possible c remaining f →
    (r.quiet.eval ρ = true ↔ ∀ o ∈ f.replay c inputs, o.faulty.alarm c = false)
  flips : r.flips = Choice.ofVars (stepVars all inputs.length)
  time : r.time = inputs.length
  ordered : r.faulty.All fun d => d.Ordered 0
  quietOrdered : r.quiet.Ordered 0

/-- The same within a step, before the next state. -/
structure Shows (c : Circuit) (all remaining : List Candidate) (inputs : List (List Bool))
    (xs : List Bool) (r : Runs) : Prop where
  golden : r.golden = (c.run inputs).step c xs
  faulty : ∀ ρ f, Names all (inputs.length + 1) ρ f → Possible c remaining f →
    r.faulty.Values (Diagram.eval ρ) (f.observe c inputs.length (f.run c inputs) xs).faulty
  quiet : ∀ ρ f, Names all (inputs.length + 1) ρ f → Possible c remaining f →
    (r.quiet.eval ρ = true ↔ ∀ o ∈ f.replay c (inputs ++ [xs]), o.faulty.alarm c = false)
  flips : r.flips = Choice.ofVars (stepVars all (inputs.length + 1))
  time : r.time = inputs.length + 1
  ordered : r.faulty.All fun d => d.Ordered 0
  quietOrdered : r.quiet.Ordered 0

theorem inject_eq {k : Candidate} {l : Latch} (hl : c.latches[k.1.index]? = some l)
    (flip : Nat) (T : Table Diagram) :
    inject c flip T k = T.set l.signal.var
      ((T.read k.1.signal).xor ((Diagram.ofVar k.2).and (.ofVar flip))) := by
  rw [inject, Table.setLatch?, hl]
  rfl

section Inject

variable (hLatch : ∀ k ∈ remaining, ∃ l, c.latches[k.1.index]? = some l ∧ k.1.signal = l.signal)
include hLatch

theorem values_inject {flip : Nat} {T : Table Diagram} {t : Table Bool}
    (h : T.Values (Diagram.eval ρ) t) :
    (remaining.foldl (inject c flip) T).Values (Diagram.eval ρ)
      (remaining.foldl (fun t k => if ρ k.2 && ρ flip then t.flip c k.1.index else t) t) := by
  induction remaining generalizing T t with
  | nil => exact h
  | cons k ks ih =>
    obtain ⟨⟨l, hl, hSignal⟩, hLatch⟩ := List.forall_mem_cons.mp hLatch
    refine ih hLatch ?_
    rw [inject_eq hl]
    refine h.flip hl ?_
    rw [Diagram.eval_xor, Diagram.eval_and, Diagram.eval_ofVar, Diagram.eval_ofVar,
      h.read (evaluation_eval ρ).toEvaluation, hSignal,
      Table.read_of_plain (c.latch_plain (List.mem_of_getElem? hl))]

theorem ordered_inject {flip : Nat} {T : Table Diagram} (h : T.All fun d => d.Ordered 0) :
    (remaining.foldl (inject c flip) T).All fun d => d.Ordered 0 := by
  induction remaining generalizing T with
  | nil => exact h
  | cons k ks ih =>
    obtain ⟨⟨l, hl, _⟩, hLatch⟩ := List.forall_mem_cons.mp hLatch
    refine ih hLatch ?_
    rw [inject_eq hl]
    exact h.set _ ((h.read (fun _ hd => hd.not) k.1.signal).xor
      ((Diagram.ordered_ofVar k.2).and (Diagram.ordered_ofVar flip)))

end Inject

theorem tracks_initial (c : Circuit) (all remaining : List Candidate) :
    Tracks c all remaining [] (Runs.initial c) := by
  refine ⟨rfl, fun ρ f _ _ => Table.values_initial (evaluation_eval ρ).toEvaluation c,
    fun ρ f _ _ => iff_of_true rfl (List.forall_mem_nil _), rfl, rfl, ?_, trivial⟩
  exact Table.all_initial (fun _ => trivial) c

theorem Tracks.sublist {ks : List Candidate} (h : Tracks c all remaining inputs r)
    (hks : ks.Sublist remaining) : Tracks c all ks inputs r :=
  ⟨h.golden, fun ρ f hf hPossible => h.faulty ρ f hf (hPossible.mono hks.subset),
    fun ρ f hf hPossible => h.quiet ρ f hf (hPossible.mono hks.subset), h.flips, h.time,
    h.ordered, h.quietOrdered⟩

/-- The faulty table of the next step. -/
def stepped (c : Circuit) (all remaining : List Candidate) (levels : List Level) (r : Runs) :
    Table Diagram :=
  (remaining.foldl (inject c (all.length + r.time))
    (r.faulty.setAll c.inputs (levels.map fun x => .leaf x.toBool))).settle c

section Step

variable (h : Tracks c all remaining inputs r) (hAll : Numbered c all)
  (hRemaining : remaining.Sublist all)
include h hAll hRemaining

/-- The fault that is named is injected where it strikes. -/
theorem Tracks.values_stepped (levels : List Level) (hf : Names all (inputs.length + 1) ρ f)
    (hPossible : Possible c remaining f) : (stepped c all remaining levels r).Values
      (Diagram.eval ρ)
      (f.observe c inputs.length (f.run c inputs) (levels.map Level.toBool)).faulty := by
  have hCandidates := hAll.toCandidates.sublist hRemaining
  have hInputs := (h.faulty ρ f (hf.mono (Nat.le_succ _)) hPossible).setAll c.inputs
    (levels.map fun x => .leaf x.toBool)
  rw [List.map_map] at hInputs
  have hStrikes : ∀ k ∈ remaining, (ρ k.2 && ρ (all.length + r.time)) =
      (decide (k.1.index = f.latch) && decide (r.time = f.time)) := by
    intro k hk
    rw [hf.latch k (hRemaining.subset hk), h.time, hf.time _ (Nat.lt_succ_self _)]
  have hInject : (remaining.foldl (inject c (all.length + r.time))
      (r.faulty.setAll c.inputs (levels.map fun x => .leaf x.toBool))).Values _ _ :=
    values_inject hCandidates.latch hInputs
  rw [foldl_flip hCandidates.distinct hStrikes hPossible] at hInject
  refine (hInject.settle (evaluation_eval ρ) c).congr fun v => ?_
  exact Table.get_step_strike f (by rw [h.time]) _ _ v

theorem Tracks.ordered_stepped (levels : List Level) :
    (stepped c all remaining levels r).All fun d => d.Ordered 0 := by
  have hInputs : (r.faulty.setAll c.inputs (levels.map fun x => .leaf x.toBool)).All
      fun d => d.Ordered 0 := by
    refine h.ordered.setAll c.inputs fun d hd => ?_
    obtain ⟨x, _, rfl⟩ := List.mem_map.mp hd
    trivial
  exact (ordered_inject (hAll.toCandidates.sublist hRemaining).latch hInputs).settle
    (fun _ hd => hd.not) (fun _ _ hd hd' => hd.and hd') c

theorem Tracks.step {levels : List Level} (hLength : levels.length = c.inputs.length)
    (hStep : r.step c all.length remaining levels = .ok r') :
    Shows c all remaining inputs (levels.map Level.toBool) r' := by
  rw [Runs.step] at hStep
  split at hStep
  · cases hStep
  rename_i T hLevels
  obtain rfl := Table.setLevels_eq_ok hLength hLevels
  cases hStep
  have hOrdered := h.ordered_stepped hAll hRemaining levels
  refine ⟨by rw [h.golden], fun ρ f => h.values_stepped hAll hRemaining levels,
    fun ρ f hf hPossible => ?_, ?_, by rw [h.time], hOrdered, ?_⟩
  · have hAlarm := (h.values_stepped hAll hRemaining levels hf hPossible).alarm
      (evaluation_eval ρ).toEvaluation c
    rw [Diagram.eval_and, Bool.and_eq_true, h.quiet ρ f (hf.mono (Nat.le_succ _)) hPossible,
      f.replay_snoc, List.forall_mem_append, List.forall_mem_singleton, Diagram.eval_not,
      Bool.not_eq_true', ← hAlarm]
    rfl
  · rw [stepVars_succ, Choice.ofVars_snoc, h.flips, h.time]
  · exact h.quietOrdered.and (hOrdered.alarm (fun _ hd => hd.not) trivial c).not

end Step

theorem Shows.advance (h : Shows c all remaining inputs xs r) :
    Tracks c all remaining (inputs ++ [xs]) (r.advance c) := by
  have hLength : (inputs ++ [xs]).length = inputs.length + 1 := by
    rw [List.length_append, List.length_singleton]
  refine ⟨?_, fun ρ f hf hPossible => ?_, hLength ▸ h.quiet, hLength ▸ h.flips, hLength ▸ h.time,
    h.ordered.advance (fun _ hd => hd.not) c, h.quietOrdered⟩
  · rw [Circuit.run_snoc, ← h.golden]
    rfl
  · rw [hLength] at hf
    rw [Fault.run_snoc]
    exact (h.faulty ρ f hf hPossible).advance (evaluation_eval ρ).toEvaluation c

theorem eval_foldl_differs (ρ : Assignment) (ps : List (Diagram × Bool)) (d : Diagram) :
    (ps.foldl (fun d (out, ok) => d.or (if ok then out.not else out)) d).eval ρ =
      (d.eval ρ || ps.any fun p => p.1.eval ρ != p.2) := by
  induction ps generalizing d with
  | nil => simp
  | cons p ps ih =>
    obtain ⟨out, ok⟩ := p
    rw [List.foldl_cons, ih, List.any_cons, Diagram.eval_or, Bool.or_assoc]
    cases ok <;> simp

theorem any_ne_iff {xs ys : List Bool} (hLength : xs.length = ys.length) :
    ((xs.zip ys).any fun p => p.1 != p.2) = true ↔ xs ≠ ys := by
  induction xs generalizing ys with
  | nil =>
    rw [List.length_eq_zero_iff.mp hLength.symm]
    simp
  | cons x xs ih =>
    obtain _ | ⟨y, ys⟩ := ys
    · cases hLength
    rw [List.zip_cons_cons, List.any_cons, Bool.or_eq_true, ih (Nat.succ.inj hLength), bne_iff_ne]
    by_cases hHead : x = y
    · simp [hHead]
    · simp [hHead]

theorem Shows.eval_differs (h : Shows c all remaining inputs xs r)
    (hf : Names all (inputs.length + 1) ρ f) (hPossible : Possible c remaining f) :
    (r.differs c).eval ρ = true ↔
      (f.observe c inputs.length (f.run c inputs) xs).agrees c = false := by
  have hObserved := (h.faulty ρ f hf hPossible).observed (evaluation_eval ρ).toEvaluation c
  have hLength : ((r.faulty.observed c).map (Diagram.eval ρ)).length =
      (r.golden.observed c).length := by
    rw [List.length_map, Table.length_observed, Table.length_observed]
  have hAny := any_ne_iff hLength
  rw [List.zip_map_left, List.any_map] at hAny
  have hGolden : (f.observe c inputs.length (f.run c inputs) xs).golden = r.golden := by
    rw [h.golden, ← f.run_fst c inputs]
    rfl
  rw [Runs.differs, eval_foldl_differs, Diagram.eval, Bool.false_or, Observation.agrees,
    decide_eq_false_iff_not, hGolden, ← hObserved]
  exact hAny.trans ne_comm

/-- The assignments that satisfy the diagram of the step are those whose fault errs there. -/
theorem Shows.eval_iff (h : Shows c all remaining inputs xs r)
    (hf : Names all (inputs.length + 1) ρ f) (hPossible : Possible c remaining f) :
    (r.quiet.and (r.differs c)).eval ρ = true ↔
      Silent c (f.replay c (inputs ++ [xs])) inputs.length := by
  rw [Diagram.eval_and, Bool.and_eq_true, h.quiet ρ f hf hPossible, h.eval_differs hf hPossible]
  constructor
  · rintro ⟨hQuiet, hWrong⟩
    exact ⟨fun i _ o ho => hQuiet o (List.mem_of_getElem? ho), _, f.getElem?_replay_snoc c _ _,
      hWrong⟩
  · rintro ⟨hQuiet, o, ho, hWrong⟩
    rw [f.getElem?_replay_snoc] at ho
    refine ⟨fun o' ho' => ?_, Option.some.inj ho ▸ hWrong⟩
    obtain ⟨i, hi, rfl⟩ := List.getElem_of_mem ho'
    have hLength := f.length_replay c (inputs ++ [xs])
    rw [List.length_append, List.length_singleton] at hLength
    exact hQuiet i (by omega) _ (List.getElem?_eq_getElem hi)

theorem Shows.ordered_differs (h : Shows c all remaining inputs xs r) :
    (r.differs c).Ordered 0 := by
  have hFold : ∀ (ps : List (Diagram × Bool)) (d : Diagram), (∀ p ∈ ps, p.1.Ordered 0) →
      d.Ordered 0 →
      (ps.foldl (fun d (out, ok) => d.or (if ok then out.not else out)) d).Ordered 0 := by
    intro ps
    induction ps with
    | nil => exact fun _ _ hd => hd
    | cons p ps ih =>
      obtain ⟨out, ok⟩ := p
      intro d hps hd
      obtain ⟨hOut, hps⟩ := List.forall_mem_cons.mp hps
      refine ih _ hps (hd.or ?_)
      cases ok with
      | false => exact hOut
      | true => exact hOut.not
  refine hFold _ _ (fun p hp => ?_) trivial
  exact h.ordered.map_read (fun _ hd => hd.not) c.observed _ (List.of_mem_zip hp).1

end Vulnerability.Diagrammatic

end SoftError

import SoftError.Fault.Component
import SoftError.Proofs.Ascending
import SoftError.Proofs.Fault.Replay
import SoftError.Proofs.Unrolling.Alarms
import SoftError.Vulnerability.Report

/-!
# Silent errors

A fault errs on some inputs if their last step shows a wrong output and no step shows an
alarm. The golden alarm counts where it is not a constant of the symbolic run. A search for
errors is exact if every trace shows the first error on its inputs, and if no fault of a latch
without a trace errs on any inputs that the stimulus admits.
-/

namespace SoftError.Vulnerability

variable (c : Circuit)

/-- The faulty alarm is low, and so is the golden one if its literal is not a constant. -/
def Unseen (alarm : Lit) (o : Observation) : Prop :=
  o.faulty.alarm c = false ∧ (alarm.isConstant = false → o.golden.alarm c = false)

def Quiet (steps : List (List Level)) (os : List Observation) : Prop :=
  List.Forall₂ (Unseen c) (Unrolling.alarms c steps) os

/-- The last step is the one with a wrong output. -/
def Errs (steps : List (List Level)) (f : Fault) (inputs : List (List Bool)) : Prop :=
  Quiet c steps (f.replay c inputs) ∧
    ∃ o, (f.replay c inputs).getLast? = some o ∧ o.agrees c = false

/-- The trace shows the first error of the latch on its inputs. -/
structure Shows (steps : List (List Level)) (k : Component) (t : ErrorTrace) : Prop where
  latch : t.latch = k.signal
  flip_le : t.flip ≤ t.error
  length : t.inputs.length = t.error + 1
  admits : AdmitsSteps (steps.take (t.error + 1)) t.inputs
  errs : Errs c (steps.take (t.error + 1)) ⟨k.index, t.flip⟩ t.inputs
  first : ∀ i < t.error, ∀ o, ((⟨k.index, t.flip⟩ : Fault).replay c t.inputs)[i]? = some o →
    o.agrees c = true

/-- No fault of the latch errs within the steps. -/
def Immune (steps : List (List Level)) (latch : Nat) : Prop :=
  ∀ n time inputs, AdmitsSteps (steps.take n) inputs → ¬ Errs c (steps.take n) ⟨latch, time⟩ inputs

variable {c} {steps : List (List Level)} {f : Fault}

theorem quiet_snoc {vs : List Level} {os : List Observation} {o : Observation} :
    Quiet c (steps ++ [vs]) (os ++ [o]) ↔ Quiet c steps os ∧
      Unseen c ((Unrolling.drive c (Unrolling.solo c steps) vs).1.alarm c) o := by
  rw [Quiet, Unrolling.alarms_snoc]
  constructor
  · intro h
    have hLength : (Unrolling.alarms c steps).length = os.length := by
      have := h.length_eq
      simpa using this
    have hTake := List.forall₂_take os.length h
    have hDrop := List.forall₂_drop os.length h
    rw [List.take_left' hLength, List.take_left] at hTake
    rw [List.drop_left' hLength, List.drop_left] at hDrop
    exact ⟨hTake, (List.forall₂_cons.mp hDrop).1⟩
  · rintro ⟨hQuiet, hUnseen⟩
    exact List.rel_append hQuiet (.cons hUnseen .nil)

theorem Quiet.take {os : List Observation} (h : Quiet c steps os) (n : Nat) :
    Quiet c (steps.take n) (os.take n) := by
  rw [Quiet, Unrolling.alarms_take]
  exact List.forall₂_take n h

theorem errs_snoc {vs : List Level} {inputs : List (List Bool)} {xs : List Bool} :
    Errs c (steps ++ [vs]) f (inputs ++ [xs]) ↔
      Quiet c steps (f.replay c inputs) ∧
        Unseen c ((Unrolling.drive c (Unrolling.solo c steps) vs).1.alarm c)
          (f.observe c inputs.length (f.run c inputs) xs) ∧
        (f.observe c inputs.length (f.run c inputs) xs).agrees c = false := by
  rw [Errs, f.replay_snoc, quiet_snoc, List.getLast?_concat, and_assoc]
  simp

/-- A fault leads to a wrong output in step `t` of a run on the stimulus, without any alarm up to
there. A golden alarm is excluded where it is not a constant of the symbolic run. -/
structure SilentError (c : Circuit) (s : Stimulus) (f : Fault) (inputs : List (List Bool))
    (t : Nat) : Prop where
  admits : s.Admits inputs
  flip_le : f.time ≤ t
  lt : t < s.length
  quiet : ∀ i ≤ t, ∀ o, (f.replay c inputs)[i]? = some o → o.faulty.alarm c = false
  wrong : ∃ o, (f.replay c inputs)[t]? = some o ∧ o.agrees c = false
  golden : ∀ i ≤ t, ∀ o a, (f.replay c inputs)[i]? = some o →
    (Unrolling.alarms c s.steps)[i]? = some a → a.isConstant = false → o.golden.alarm c = false

theorem quiet_take_iff {inputs : List (List Bool)} (hLength : steps.length = inputs.length)
    {n : Nat} : Quiet c (steps.take n) (f.replay c (inputs.take n)) ↔
      ∀ i < n, ∀ o a, (f.replay c inputs)[i]? = some o →
        (Unrolling.alarms c steps)[i]? = some a → Unseen c a o := by
  have hAlarms := Unrolling.length_alarms (c := c) steps
  have hReplay := f.length_replay c inputs
  rw [Quiet, Unrolling.alarms_take, Fault.replay_take, List.forall₂_iff_get]
  simp only [List.length_take, hAlarms, hReplay, hLength, List.get_eq_getElem, List.getElem_take,
    true_and]
  constructor
  · intro h i hi o a ho ha
    obtain ⟨hio, rfl⟩ := List.getElem?_eq_some_iff.mp ho
    obtain ⟨hia, rfl⟩ := List.getElem?_eq_some_iff.mp ha
    exact h i (by omega) (by omega)
  · intro h i hi _
    exact h i (by omega) _ _ (List.getElem?_eq_getElem (by omega))
      (List.getElem?_eq_getElem (by omega))

theorem silentError_iff {s : Stimulus} {inputs : List (List Bool)} {t : Nat} :
    SilentError c s f inputs t ↔ s.Admits inputs ∧ f.time ≤ t ∧ t < s.length ∧
      Errs c (s.steps.take (t + 1)) f (inputs.take (t + 1)) := by
  constructor
  · rintro ⟨hAdmits, hFlip, hLt, hQuiet, ⟨o, ho, hWrong⟩, hGolden⟩
    have hLength := hAdmits.length_eq
    refine ⟨hAdmits, hFlip, hLt, (quiet_take_iff hLength).mpr fun i hi o a ho ha => ?_, o, ?_,
      hWrong⟩
    · exact ⟨hQuiet i (Nat.le_of_lt_succ hi) o ho, hGolden i (Nat.le_of_lt_succ hi) o a ho ha⟩
    · rw [Fault.getLast?_replay_take c _ (hLength ▸ hLt)]
      exact ho
  · rintro ⟨hAdmits, hFlip, hLt, hQuiet, o, ho, hWrong⟩
    have hLength := hAdmits.length_eq
    rw [Fault.getLast?_replay_take c _ (hLength ▸ hLt)] at ho
    rw [quiet_take_iff hLength] at hQuiet
    refine ⟨hAdmits, hFlip, hLt, fun i hi o ho => ?_, ⟨o, ho, hWrong⟩, fun i hi o a ho ha => ?_⟩
    · have hi' : i < (Unrolling.alarms c s.steps).length := by
        rw [Unrolling.length_alarms]
        exact lt_of_le_of_lt hi hLt
      exact (hQuiet i (Nat.lt_succ_of_le hi) o _ ho (List.getElem?_eq_getElem hi')).1
    · exact (hQuiet i (Nat.lt_succ_of_le hi) o a ho ha).2

/-- A trace can be continued to a run on the whole stimulus. -/
theorem Shows.exists_silentError {s : Stimulus} {k : Component} {t : ErrorTrace}
    (h : Shows c s.steps k t) :
    ∃ inputs, SilentError c s ⟨k.index, t.flip⟩ inputs t.error := by
  obtain ⟨inputs, hAdmits, hTake⟩ := h.admits.extend
  rw [h.length] at hTake
  refine ⟨inputs, silentError_iff.mpr ⟨hAdmits, h.flip_le, ?_, hTake ▸ h.errs⟩⟩
  have hLength := h.admits.length_eq
  rw [h.length, List.length_take] at hLength
  rw [Stimulus.length]
  omega

theorem Immune.not_silentError {s : Stimulus} {latch : Nat} (h : Immune c s.steps latch)
    (time : Nat) (inputs : List (List Bool)) (t : Nat) :
    ¬ SilentError c s ⟨latch, time⟩ inputs t := by
  intro hError
  obtain ⟨hAdmits, _, _, hErrs⟩ := silentError_iff.mp hError
  exact h (t + 1) time _ (hAdmits.take (t + 1)) hErrs

theorem signal_eq_of_not_lt (a b : Signal) (hab : decide (a.code < b.code) = false)
    (hba : decide (b.code < a.code) = false) : a = b := by
  have hCode : a.code = b.code := by
    have := of_decide_eq_false hab
    have := of_decide_eq_false hba
    omega
  cases a
  cases b
  exact congrArg Signal.mk hCode

theorem mem_sorted {ss : List Signal} {s : Signal} : s ∈ Signal.sorted ss ↔ s ∈ ss :=
  Ascending.mem_ofList fun a _ b _ => signal_eq_of_not_lt a b

theorem pairwise_sorted (ss : List Signal) :
    (Signal.sorted ss).Pairwise fun a b => a.code < b.code := by
  refine (Ascending.pairwise_ofList ?_ ss).imp of_decide_eq_true
  intro a b c hab hbc
  rw [decide_eq_true_eq] at hab hbc ⊢
  exact hab.trans hbc

theorem mem_vulnerable {o : Options} {ts : List ErrorTrace} {s : Signal} :
    s ∈ (Report.ofTraces o ts).vulnerable ↔ ∃ t ∈ ts, t.latch = s := by
  rw [Report.ofTraces, mem_sorted, List.mem_map]

theorem vulnerable_congr {o o' : Options} {ts ts' : List ErrorTrace}
    (h : ∀ s, (∃ t ∈ ts, t.latch = s) ↔ ∃ t ∈ ts', t.latch = s) :
    (Report.ofTraces o ts).vulnerable = (Report.ofTraces o' ts').vulnerable := by
  refine Ascending.ofList_congr ?_ signal_eq_of_not_lt (by simp) fun s => ?_
  · intro a b c hab hbc
    rw [decide_eq_true_eq] at hab hbc ⊢
    exact hab.trans hbc
  · rw [List.mem_map, List.mem_map]
    exact h s

/-- A fault that errs has struck a latch. -/
theorem Errs.strikes {inputs : List (List Bool)} (h : Errs c steps f inputs) :
    f.time < inputs.length ∧ f.latch < c.latches.length := by
  obtain ⟨_, o, hLast, hDiffers⟩ := h
  rw [List.getLast?_eq_getElem?, Fault.length_replay] at hLast
  have hLength : inputs.length - 1 < inputs.length := by
    have := (List.getElem?_eq_some_iff.mp hLast).1
    rwa [Fault.length_replay] at this
  by_contra hNot
  have hSame := f.golden_eq_faulty c hLast (by omega)
  rw [Observation.agrees, hSame, decide_eq_false_iff_not] at hDiffers
  exact hDiffers rfl

theorem immune_nil (c : Circuit) (latch : Nat) : Immune c [] latch := by
  intro n time inputs hAdmits hErrs
  rw [List.take_nil] at hAdmits hErrs
  cases hAdmits
  exact Nat.not_lt_zero _ hErrs.strikes.1

theorem Immune.snoc {latch : Nat} {vs : List Level} (h : Immune c steps latch)
    (hLast : ∀ time inputs, AdmitsSteps (steps ++ [vs]) inputs →
      ¬ Errs c (steps ++ [vs]) ⟨latch, time⟩ inputs) : Immune c (steps ++ [vs]) latch := by
  intro n time inputs hAdmits
  by_cases hn : n ≤ steps.length
  · rw [List.take_append_of_le_length hn] at hAdmits ⊢
    exact h n time inputs hAdmits
  · rw [List.take_of_length_le (by simp; omega)] at hAdmits ⊢
    exact hLast time inputs hAdmits

/-- As long as no fault of the latch errs, the outputs agree. -/
theorem Immune.agrees (h : Immune c steps f.latch) {vs : List Level} {inputs : List (List Bool)}
    (hAdmits : AdmitsSteps (steps ++ [vs]) inputs)
    (hQuiet : Quiet c (steps ++ [vs]) (f.replay c inputs)) {i : Nat} (hi : i < steps.length)
    {o : Observation} (ho : (f.replay c inputs)[i]? = some o) : o.agrees c = true := by
  by_contra hDiffers
  rw [Bool.not_eq_true] at hDiffers
  have hTake : (steps ++ [vs]).take (i + 1) = steps.take (i + 1) :=
    List.take_append_of_le_length hi
  refine h (i + 1) f.time (inputs.take (i + 1)) ?_ ⟨?_, o, ?_, hDiffers⟩
  · rw [← hTake]
    exact hAdmits.take (i + 1)
  · rw [← hTake, Fault.replay_take]
    exact hQuiet.take (i + 1)
  · have hLength := hAdmits.length_eq
    rw [List.length_append, List.length_singleton] at hLength
    rw [f.getLast?_replay_take c (by omega)]
    exact ho

/-- The first fault of a latch that errs gives a trace. -/
theorem Immune.shows {k : Component} {past : List (List Level)} (h : Immune c past k.index)
    {vs : List Level} (hSteps : steps.take (past.length + 1) = past ++ [vs])
    {inputs : List (List Bool)} (hAdmits : AdmitsSteps (past ++ [vs]) inputs) {time : Nat}
    (hErrs : Errs c (past ++ [vs]) ⟨k.index, time⟩ inputs) :
    Shows c steps k ⟨k.signal, time, past.length, inputs⟩ := by
  have hLength : inputs.length = past.length + 1 :=
    hAdmits.length_eq.symm.trans List.length_append
  refine ⟨rfl, ?_, hLength, hSteps ▸ hAdmits, hSteps ▸ hErrs, fun i hi o ho => ?_⟩
  · exact Nat.le_of_lt_succ (lt_of_lt_of_eq hErrs.strikes.1 hLength)
  · exact h.agrees (f := ⟨k.index, time⟩) hAdmits hErrs.1 hi ho

/-- What a search finds: traces of different latches, each of which shows `P`, while `Q` is true
of the latches without a trace. -/
structure Finds (P : Component → ErrorTrace → Prop) (Q : Component → Prop)
    (ks : List Component) (ts : List ErrorTrace) : Prop where
  shows : ∀ t ∈ ts, ∃ k ∈ ks, t.latch = k.signal ∧ P k t
  nodup : (ts.map ErrorTrace.latch).Nodup
  others : ∀ k ∈ ks, (∀ t ∈ ts, t.latch ≠ k.signal) → Q k

namespace Finds

variable {P P' : Component → ErrorTrace → Prop} {Q Q' : Component → Prop}
  {ks ks' : List Component} {ts ts' : List ErrorTrace}

theorem nil (h : ∀ k ∈ ks, Q k) : Finds P Q ks [] :=
  ⟨List.forall_mem_nil _, List.nodup_nil, fun k hk _ => h k hk⟩

theorem imp (h : Finds P Q ks ts) (hP : ∀ k t, P k t → P' k t) (hQ : ∀ k, Q k → Q' k) :
    Finds P' Q' ks ts := by
  refine ⟨fun t ht => ?_, h.nodup, fun k hk hNone => hQ k (h.others k hk hNone)⟩
  obtain ⟨k, hk, hLatch, hShows⟩ := h.shows t ht
  exact ⟨k, hk, hLatch, hP k t hShows⟩

/-- The search goes on with the latches without a trace. -/
theorem append (h : Finds P Q ks ts) (h' : Finds P Q' ks' ts')
    (hks : ∀ k, k ∈ ks' ↔ k ∈ ks ∧ ∀ t ∈ ts, t.latch ≠ k.signal) :
    Finds P (fun k => Q k ∧ Q' k) ks (ts ++ ts') := by
  refine ⟨?_, ?_, fun k hk hNone => ?_⟩
  · rw [List.forall_mem_append]
    refine ⟨h.shows, fun t ht => ?_⟩
    obtain ⟨k, hk, hShows⟩ := h'.shows t ht
    exact ⟨k, ((hks k).mp hk).1, hShows⟩
  · rw [List.map_append, List.nodup_append]
    refine ⟨h.nodup, h'.nodup, fun a ha b hb hEq => ?_⟩
    obtain ⟨t, ht, rfl⟩ := List.mem_map.mp ha
    obtain ⟨t', ht', rfl⟩ := List.mem_map.mp hb
    obtain ⟨k, hk, hLatch, _⟩ := h'.shows t' ht'
    exact ((hks k).mp hk).2 t ht (hEq.trans hLatch)
  · obtain ⟨hFirst, hRest⟩ := List.forall_mem_append.mp hNone
    exact ⟨h.others k hk hFirst, h'.others k ((hks k).mpr ⟨hk, hFirst⟩) hRest⟩

/-- The search goes through the latches one by one. -/
theorem cons {k : Component} {found : Option ErrorTrace} (h : Finds P Q ks ts)
    (hShows : ∀ t, found = some t → t.latch = k.signal ∧ P k t) (hNone : found = none → Q k)
    (hk : k.signal ∉ ks.map Component.signal) : Finds P Q (k :: ks) (found.toList ++ ts) := by
  have hFirst : Finds P Q [k] found.toList := by
    cases found with
    | none => exact .nil (List.forall_mem_singleton.mpr (hNone rfl))
    | some t =>
      refine ⟨List.forall_mem_singleton.mpr ⟨k, List.mem_singleton_self k, hShows t rfl⟩,
        List.nodup_singleton _, List.forall_mem_singleton.mpr fun hOthers => ?_⟩
      exact absurd (hShows t rfl).1 (hOthers t (List.mem_singleton_self t))
  refine ⟨?_, ?_, ?_⟩
  · refine List.forall_mem_append.mpr ⟨fun t ht => ?_, fun t ht => ?_⟩
    · obtain ⟨k', hk', hFound⟩ := hFirst.shows t ht
      exact ⟨k', List.mem_cons.mpr (.inl (List.mem_singleton.mp hk')), hFound⟩
    · obtain ⟨k', hk', hFound⟩ := h.shows t ht
      exact ⟨k', List.mem_cons_of_mem k hk', hFound⟩
  · rw [List.map_append, List.nodup_append]
    refine ⟨hFirst.nodup, h.nodup, fun a ha b hb hEq => hk ?_⟩
    obtain ⟨t, ht, rfl⟩ := List.mem_map.mp ha
    obtain ⟨t', ht', rfl⟩ := List.mem_map.mp hb
    obtain ⟨k', hk', hLatch, _⟩ := hFirst.shows t ht
    obtain ⟨k'', hk'', hLatch', _⟩ := h.shows t' ht'
    rw [← List.mem_singleton.mp hk', ← hLatch, hEq, hLatch']
    exact List.mem_map_of_mem hk''
  · refine List.forall_mem_cons.mpr ⟨fun hOthers => ?_, fun k' hk' hOthers => ?_⟩
    · exact hFirst.others k (List.mem_singleton_self k) (List.forall_mem_append.mp hOthers).1
    · exact h.others k' hk' (List.forall_mem_append.mp hOthers).2

/-- If traces show `R` and it fails of the other latches, the search decides it. -/
theorem exists_trace_iff {R : Component → Prop} (h : Finds P Q ks ts)
    (hP : ∀ k t, P k t → R k) (hQ : ∀ k, Q k → ¬ R k) {x : Signal} :
    (∃ t ∈ ts, t.latch = x) ↔ ∃ k ∈ ks, k.signal = x ∧ R k := by
  constructor
  · rintro ⟨t, ht, rfl⟩
    obtain ⟨k, hk, hLatch, hShows⟩ := h.shows t ht
    exact ⟨k, hk, hLatch.symm, hP k t hShows⟩
  · rintro ⟨k, hk, rfl, hR⟩
    by_contra hNot
    exact hQ k (h.others k hk fun t ht hEq => hNot ⟨t, ht, hEq⟩) hR

theorem vulnerable_eq {R : Component → Prop} (h : Finds P Q ks ts) (h' : Finds P' Q' ks ts')
    (hP : ∀ k t, P k t → R k) (hQ : ∀ k, Q k → ¬ R k) (hP' : ∀ k t, P' k t → R k)
    (hQ' : ∀ k, Q' k → ¬ R k) (o o' : Options) :
    (Report.ofTraces o ts).vulnerable = (Report.ofTraces o' ts').vulnerable :=
  vulnerable_congr fun _ => (h.exists_trace_iff hP hQ).trans (h'.exists_trace_iff hP' hQ').symm

end Finds

/-- A latch that holds its value, shown at the output while the input is high. The alarm is
always low. -/
def gatedLatch : Circuit where
  maxVar := 3
  inputs := [⟨2⟩]
  latches := [⟨⟨4⟩, ⟨4⟩, none⟩]
  outputs := [⟨6⟩, ⟨0⟩]
  gates := [⟨⟨6⟩, ⟨4⟩, ⟨2⟩⟩]
  wellFormed := ⟨by decide, by decide, by decide, by decide, by decide, by decide,
    ⟨by decide, trivial⟩⟩

/-- The input is low at first and free from then on. -/
def lateInput : Stimulus := ⟨1, [[.low], [.free]], by decide⟩

end SoftError.Vulnerability

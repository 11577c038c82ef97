import SoftError.Proofs.Fault.Recovery
import SoftError.Proofs.Stimulus.Admits
import SoftError.Superfluous.Runs

/-!
# Harmless faults

An environment reads the inputs and the golden outputs of each step, and its outputs say which
outputs of the circuit matter. A fault is harmless on some inputs if it changes none of these
in any step, while the golden alarm stays low. An alarm that a harmless fault raises is
superfluous once the fault has left no trace in the state.
-/

namespace SoftError

namespace Circuit

variable (c : Circuit)

def answersFrom (t : Table Bool) : List (List Bool) → List (List Bool)
  | [] => []
  | xs :: rest => (t.step c xs).outputs c :: answersFrom ((t.step c xs).advance c) rest

/-- The outputs in each step of a run. -/
def answers (inputs : List (List Bool)) : List (List Bool) :=
  c.answersFrom (Table.initial c) inputs

theorem answersFrom_snoc (t : Table Bool) (inputs : List (List Bool)) (xs : List Bool) :
    c.answersFrom t (inputs ++ [xs]) =
      c.answersFrom t inputs ++ [((c.runFrom t inputs).step c xs).outputs c] := by
  induction inputs generalizing t with
  | nil => rfl
  | cons ys inputs ih =>
    rw [List.cons_append, answersFrom, ih]
    rfl

theorem answers_snoc (inputs : List (List Bool)) (xs : List Bool) :
    c.answers (inputs ++ [xs]) = c.answers inputs ++ [((c.run inputs).step c xs).outputs c] :=
  c.answersFrom_snoc _ inputs xs

theorem length_answersFrom (t : Table Bool) (inputs : List (List Bool)) :
    (c.answersFrom t inputs).length = inputs.length := by
  induction inputs generalizing t with
  | nil => rfl
  | cons xs inputs ih => rw [answersFrom, List.length_cons, ih, List.length_cons]

theorem length_answers (inputs : List (List Bool)) :
    (c.answers inputs).length = inputs.length :=
  c.length_answersFrom _ inputs

theorem answersFrom_take (t : Table Bool) (inputs : List (List Bool)) (n : Nat) :
    c.answersFrom t (inputs.take n) = (c.answersFrom t inputs).take n := by
  induction inputs generalizing t n with
  | nil => simp [answersFrom]
  | cons xs inputs ih =>
    cases n with
    | zero => rfl
    | succ n => rw [List.take_succ_cons, answersFrom, ih, answersFrom, List.take_succ_cons]

end Circuit

namespace Superfluous

variable (p : Problem)

/-- What the environment reads: the inputs and the golden outputs of each step. -/
def Problem.feeds (inputs : List (List Bool)) : List (List Bool) :=
  List.zipWith (· ++ ·) inputs (p.circuit.answers inputs)

/-- What the environment says in a step, if there is an environment. -/
def Problem.verdict (inputs : List (List Bool)) (i : Nat) : Option (List Bool) :=
  p.environment.bind fun env => (env.answers (p.feeds inputs))[i]?

/-- An output matters if the environment says so, or if there is none. -/
def Matters (verdict : Option (List Bool)) (j : Nat) : Prop :=
  ∀ guards, verdict = some guards → guards[j]? = some true

/-- In the modes with free inputs, the last output of an environment with as many outputs as
the circuit restricts the inputs. -/
def Problem.Allows (verdict : Option (List Bool)) : Prop :=
  ∀ guards, verdict = some guards → p.mode.freeInputs = true →
    guards.length = p.circuit.outputs.length → ∀ b, guards.getLast? = some b → b = true

/-- A step that shows no harm. -/
structure Benign (verdict : Option (List Bool)) (o : Observation) : Prop where
  golden : o.golden.alarm p.circuit = false
  outputs : ∀ j, Matters verdict j →
    (o.golden.observed p.circuit)[j]? = (o.faulty.observed p.circuit)[j]?
  allowed : p.Allows verdict

def Harmless (f : Fault) (inputs : List (List Bool)) : Prop :=
  ∀ i o, (f.replay p.circuit inputs)[i]? = some o → Benign p (p.verdict inputs i) o

/-- The fault is harmless, raises the alarm and is gone at the end. -/
structure Recovers (f : Fault) (inputs : List (List Bool)) : Prop where
  harmless : Harmless p f inputs
  alarm : ∃ o ∈ f.replay p.circuit inputs, o.faulty.alarm p.circuit = true
  gone : ∃ o, (f.replay p.circuit inputs).getLast? = some o ∧
    o.converges p.circuit p.reserved = true

/-- The trace shows a superfluous alarm: its stimulus settles the first steps of the given one,
the alarm is the first one raised, and the fault is gone at the end. If all latches are
compared, it is not gone before. -/
structure Replays (s : Stimulus) (t : SuperfluousTrace) : Prop where
  flip_le : t.flip ≤ t.alarm
  alarm_lt : t.alarm < t.gone
  length : t.stimulus.length = t.gone
  definite : t.stimulus.hasFree = false
  admits : AdmitsSteps (s.steps.take t.gone) t.stimulus.bools
  recovers : Recovers p t.fault t.stimulus.bools
  raised : ∃ o, (t.fault.replay p.circuit t.stimulus.bools)[t.alarm]? = some o ∧
    o.faulty.alarm p.circuit = true
  silent : ∀ i < t.alarm, ∀ o, (t.fault.replay p.circuit t.stimulus.bools)[i]? = some o →
    o.faulty.alarm p.circuit = false
  soonest : p.reserved = 0 → ∀ i, t.flip ≤ i → i + 1 < t.gone → ∀ o,
    (t.fault.replay p.circuit t.stimulus.bools)[i]? = some o → o.converges p.circuit 0 = false

theorem length_feeds (inputs : List (List Bool)) : (p.feeds inputs).length = inputs.length := by
  rw [Problem.feeds, List.length_zipWith, Circuit.length_answers, Nat.min_self]

theorem feeds_snoc (inputs : List (List Bool)) (xs : List Bool) :
    p.feeds (inputs ++ [xs]) =
      p.feeds inputs ++ [xs ++ ((p.circuit.run inputs).step p.circuit xs).outputs p.circuit] := by
  rw [Problem.feeds, Circuit.answers_snoc, List.zipWith_append (p.circuit.length_answers _).symm]
  rfl

theorem feeds_take (inputs : List (List Bool)) (n : Nat) :
    p.feeds (inputs.take n) = (p.feeds inputs).take n := by
  rw [Problem.feeds, Circuit.answers, Circuit.answersFrom_take, ← List.take_zipWith]
  rfl

theorem verdict_take (inputs : List (List Bool)) {n i : Nat} (h : i < n) :
    p.verdict (inputs.take n) i = p.verdict inputs i := by
  unfold Problem.verdict
  refine congrArg _ (funext fun env => ?_)
  rw [feeds_take, Circuit.answers, Circuit.answersFrom_take, List.getElem?_take_of_lt h]
  rfl

theorem verdict_snoc (inputs : List (List Bool)) (xs : List Bool) :
    p.verdict (inputs ++ [xs]) inputs.length = p.environment.map fun env =>
      ((env.run (p.feeds inputs)).step env
        (xs ++ ((p.circuit.run inputs).step p.circuit xs).outputs p.circuit)).outputs env := by
  rw [Problem.verdict]
  cases p.environment with
  | none => rfl
  | some env =>
    have hLength := (env.length_answers (p.feeds inputs)).trans (length_feeds p inputs)
    rw [Option.bind_some, feeds_snoc, Circuit.answers_snoc,
      List.getElem?_append_right hLength.le, hLength, Nat.sub_self]
    rfl

variable {p} {f : Fault} {inputs : List (List Bool)} {xs : List Bool}

theorem harmless_take_iff {n : Nat} : Harmless p f (inputs.take n) ↔
    ∀ i < n, ∀ o, (f.replay p.circuit inputs)[i]? = some o → Benign p (p.verdict inputs i) o := by
  constructor
  · intro h i hi o ho
    rw [← verdict_take p inputs hi]
    rw [← f.getElem?_replay_take p.circuit inputs hi] at ho
    exact h i o ho
  · intro h i o ho
    have hi : i < n := by
      have hLt := (List.getElem?_eq_some_iff.mp ho).1
      rw [Fault.length_replay, List.length_take] at hLt
      omega
    rw [f.getElem?_replay_take p.circuit inputs hi] at ho
    rw [verdict_take p inputs hi]
    exact h i hi o ho

theorem harmless_take (h : Harmless p f inputs) (n : Nat) : Harmless p f (inputs.take n) :=
  harmless_take_iff.mpr fun i _ => h i

theorem harmless_snoc :
    Harmless p f (inputs ++ [xs]) ↔ Harmless p f inputs ∧
      Benign p (p.verdict (inputs ++ [xs]) inputs.length)
        (f.observe p.circuit inputs.length (f.run p.circuit inputs) xs) := by
  constructor
  · intro h
    have hTake := harmless_take h inputs.length
    rw [List.take_left] at hTake
    exact ⟨hTake, h _ _ (f.getElem?_replay_snoc p.circuit inputs xs)⟩
  · rintro ⟨hInputs, hLast⟩ i o ho
    by_cases hi : i < inputs.length
    · have hTake : (inputs ++ [xs]).take inputs.length = inputs := List.take_left
      rw [← f.getElem?_replay_take p.circuit _ hi, hTake] at ho
      rw [← verdict_take p _ hi, hTake]
      exact hInputs i o ho
    · have hLt := (List.getElem?_eq_some_iff.mp ho).1
      rw [Fault.length_replay, List.length_append, List.length_singleton] at hLt
      obtain rfl : i = inputs.length := by omega
      rw [f.getElem?_replay_snoc p.circuit inputs xs] at ho
      obtain rfl := Option.some.inj ho
      exact hLast

/-- A fault that has not struck raises no alarm. -/
theorem Harmless.strikes (h : Harmless p f inputs) {i : Nat} {o : Observation}
    (ho : (f.replay p.circuit inputs)[i]? = some o) (hAlarm : o.faulty.alarm p.circuit = true) :
    f.time ≤ i ∧ f.latch < p.circuit.latches.length := by
  have hStruck : ¬ (i < f.time ∨ p.circuit.latches.length ≤ f.latch) := by
    intro hSame
    have hLow := (h i o ho).golden
    rw [f.golden_eq_faulty p.circuit ho hSame, hAlarm] at hLow
    cases hLow
  omega

theorem Recovers.strikes (h : Recovers p f inputs) :
    f.time < inputs.length ∧ f.latch < p.circuit.latches.length := by
  obtain ⟨o, ho, hAlarm⟩ := h.alarm
  obtain ⟨i, hi, rfl⟩ := List.getElem_of_mem ho
  obtain ⟨hTime, hLatch⟩ := h.harmless.strikes (List.getElem?_eq_getElem hi) hAlarm
  rw [Fault.length_replay] at hi
  exact ⟨Nat.lt_of_le_of_lt hTime hi, hLatch⟩

theorem Recovers.exists_first (h : Recovers p f inputs) :
    ∃ i, (f.replay p.circuit inputs).findIdx? (fun o => o.faulty.alarm p.circuit) = some i := by
  obtain ⟨o, ho, hAlarm⟩ := h.alarm
  refine Option.isSome_iff_exists.mp (Option.isSome_iff_ne_none.mpr fun hNone => ?_)
  have hLow := List.findIdx?_eq_none_iff.mp hNone o ho
  rw [hAlarm] at hLow
  cases hLow

theorem verdict_of_environment (h : p.environment = none) (i : Nat) :
    p.verdict inputs i = none := by
  rw [Problem.verdict, h]
  rfl

/-- Without an environment all outputs count. -/
theorem benign_none_iff {o : Observation} :
    Benign p none o ↔ o.golden.alarm p.circuit = false ∧ o.agrees p.circuit = true := by
  have hAgrees : o.agrees p.circuit = true ↔
      ∀ j : Nat, (o.golden.observed p.circuit)[j]? = (o.faulty.observed p.circuit)[j]? := by
    rw [Observation.agrees, decide_eq_true_eq]
    exact List.ext_getElem?_iff
  rw [hAgrees]
  constructor
  · intro h
    exact ⟨h.golden, fun j => h.outputs j fun guards hSome => by cases hSome⟩
  · rintro ⟨hGolden, hEq⟩
    exact ⟨hGolden, fun j _ => hEq j, fun guards hSome => by cases hSome⟩

theorem recovers_snoc :
    Recovers p f (inputs ++ [xs]) ↔ Harmless p f (inputs ++ [xs]) ∧
      (∃ o ∈ f.replay p.circuit (inputs ++ [xs]), o.faulty.alarm p.circuit = true) ∧
      (f.observe p.circuit inputs.length (f.run p.circuit inputs) xs).converges p.circuit
        p.reserved = true := by
  have hLast : (f.replay p.circuit (inputs ++ [xs])).getLast? =
      some (f.observe p.circuit inputs.length (f.run p.circuit inputs) xs) := by
    rw [f.replay_snoc, List.getLast?_concat]
  constructor
  · rintro ⟨hHarmless, hAlarm, o, ho, hGone⟩
    rw [hLast] at ho
    exact ⟨hHarmless, hAlarm, Option.some.inj ho ▸ hGone⟩
  · rintro ⟨hHarmless, hAlarm, hGone⟩
    exact ⟨hHarmless, hAlarm, _, hLast, hGone⟩

/-- Once both states are the same, no more alarms are to come: the fault has recovered by
then. -/
theorem Recovers.take (h : Recovers p f inputs) (hReserved : p.reserved = 0) {i : Nat}
    (hTime : f.time ≤ i) {o : Observation} (ho : (f.replay p.circuit inputs)[i]? = some o)
    (hGone : o.converges p.circuit 0 = true) : Recovers p f (inputs.take (i + 1)) := by
  have hState : o.golden.nextState p.circuit = o.faulty.nextState p.circuit := by
    rw [Observation.converges, decide_eq_true_eq, Nat.sub_zero] at hGone
    rwa [List.take_of_length_le (Table.length_nextState _ _).le,
      List.take_of_length_le (Table.length_nextState _ _).le] at hGone
  have hi : i < inputs.length := by
    have hLt := (List.getElem?_eq_some_iff.mp ho).1
    rwa [Fault.length_replay] at hLt
  refine ⟨harmless_take h.harmless _, ?_, o, ?_, hReserved ▸ hGone⟩
  · obtain ⟨o', ho', hAlarm⟩ := h.alarm
    obtain ⟨j, hj, rfl⟩ := List.getElem_of_mem ho'
    have hGet := List.getElem?_eq_getElem hj
    have hLe : j ≤ i := by
      by_contra hLt
      have hSame := Fault.eq_of_nextState_eq ho hTime hState hGet (Nat.lt_of_not_le hLt)
      have hLow := (h.harmless j _ hGet).golden
      rw [Table.alarm_congr hSame, hAlarm] at hLow
      cases hLow
    refine ⟨_, ?_, hAlarm⟩
    rw [Fault.replay_take]
    exact List.mem_of_getElem? ((List.getElem?_take_of_lt (Nat.lt_succ_of_le hLe)).trans hGet)
  · rw [f.getLast?_replay_take p.circuit hi]
    exact ho

/-- The fault does no harm up to step `t` of a run on the stimulus, has raised the alarm by then,
and is gone after that step. -/
structure SuperfluousAlarm (p : Problem) (s : Stimulus) (f : Fault) (inputs : List (List Bool))
    (t : Nat) : Prop where
  admits : s.Admits inputs
  flip_le : f.time ≤ t
  lt : t < s.length
  benign : ∀ i ≤ t, ∀ o, (f.replay p.circuit inputs)[i]? = some o →
    Benign p (p.verdict inputs i) o
  alarm : ∃ i ≤ t, ∃ o, (f.replay p.circuit inputs)[i]? = some o ∧
    o.faulty.alarm p.circuit = true
  gone : ∃ o, (f.replay p.circuit inputs)[t]? = some o ∧ o.converges p.circuit p.reserved = true

theorem SuperfluousAlarm.recovers {s : Stimulus} {t : Nat}
    (h : SuperfluousAlarm p s f inputs t) : Recovers p f (inputs.take (t + 1)) := by
  have hLength : s.length = inputs.length := h.admits.length_eq
  refine ⟨harmless_take_iff.mpr fun i hi => h.benign i (Nat.le_of_lt_succ hi), ?_, ?_⟩
  · obtain ⟨i, hi, o, ho, hAlarm⟩ := h.alarm
    rw [← f.getElem?_replay_take p.circuit inputs (Nat.lt_succ_of_le hi)] at ho
    exact ⟨o, List.mem_of_getElem? ho, hAlarm⟩
  · rw [f.getLast?_replay_take p.circuit (hLength ▸ h.lt)]
    exact h.gone

/-- A trace can be continued to a run on the whole stimulus. -/
theorem Replays.exists_superfluousAlarm {s : Stimulus} {t : SuperfluousTrace}
    (h : Replays p s t) : ∃ inputs, SuperfluousAlarm p s t.fault inputs (t.gone - 1) := by
  obtain ⟨inputs, hAdmits, hTake⟩ := h.admits.extend
  have hBools : t.stimulus.bools.length = t.gone := by
    rw [Stimulus.bools, List.length_map]
    exact h.length
  have hPos : t.gone - 1 + 1 = t.gone := Nat.sub_add_cancel (Nat.zero_lt_of_lt h.alarm_lt)
  have hLength : t.gone ≤ s.length := by
    have hEq := h.admits.length_eq
    rw [hBools, List.length_take] at hEq
    exact hEq ▸ Nat.min_le_right _ _
  have hInputs : s.length = inputs.length := hAdmits.length_eq
  rw [hBools] at hTake
  have hRecovers := h.recovers
  have hRaised := h.raised
  rw [← hTake] at hRecovers hRaised
  have hFlip := h.flip_le
  have hAlarm := h.alarm_lt
  refine ⟨inputs, hAdmits, ?_, ?_, fun i hi => ?_, ⟨t.alarm, ?_, ?_⟩, ?_⟩
  · exact Nat.le_sub_one_of_lt (Nat.lt_of_le_of_lt hFlip hAlarm)
  · omega
  · exact harmless_take_iff.mp hRecovers.harmless i (by omega)
  · exact Nat.le_sub_one_of_lt hAlarm
  · rwa [t.fault.getElem?_replay_take p.circuit inputs hAlarm] at hRaised
  · have hGone := hRecovers.gone
    rw [← hPos, t.fault.getLast?_replay_take p.circuit (by omega)] at hGone
    exact hGone

/-- A latch that is reset in every step, and an alarm while it is high together with the input. -/
def resettingLatch : Circuit where
  maxVar := 3
  inputs := [⟨2⟩]
  latches := [⟨⟨4⟩, ⟨0⟩, none⟩]
  outputs := [⟨0⟩, ⟨6⟩]
  gates := [⟨⟨6⟩, ⟨4⟩, ⟨2⟩⟩]
  wellFormed := ⟨by decide, by decide, by decide, by decide, by decide, by decide,
    ⟨by decide, trivial⟩⟩

def resetting : Problem := ⟨resettingLatch, none, ⟨true, true⟩, 0⟩

/-- A single step, with a free input. -/
def anyInput : Stimulus := ⟨1, [[.free]], by decide⟩

end Superfluous

end SoftError

import SoftError.Fault.Replay
import SoftError.Proofs.Circuit.Runs

/-!
# Replays step by step

A replay grows at its end: one more input vector adds one more observation and leaves the
earlier ones as they are. Up to the flip both runs are the same, and so they are if the
fault names no latch. The golden run is that of the circuit, whatever the fault.
-/

namespace SoftError

namespace Fault

variable (c : Circuit) (f : Fault)

/-- The tables of both runs after the given inputs. -/
def runFrom (t : Nat) (golden faulty : Table Bool) :
    List (List Bool) → Table Bool × Table Bool
  | [] => (golden, faulty)
  | xs :: rest => runFrom (t + 1) ((golden.step c xs).advance c)
      (((f.strike c t faulty).step c xs).advance c) rest

def run (inputs : List (List Bool)) : Table Bool × Table Bool :=
  f.runFrom c 0 (Table.initial c) (Table.initial c) inputs

/-- What step `t` shows, which starts with the given tables. -/
def observe (t : Nat) (tables : Table Bool × Table Bool) (xs : List Bool) : Observation :=
  ⟨tables.1.step c xs, (f.strike c t tables.2).step c xs⟩

theorem replayFrom_append (t : Nat) (golden faulty : Table Bool)
    (inputs more : List (List Bool)) :
    f.replayFrom c t golden faulty (inputs ++ more) =
      f.replayFrom c t golden faulty inputs ++
        f.replayFrom c (t + inputs.length) (f.runFrom c t golden faulty inputs).1
          (f.runFrom c t golden faulty inputs).2 more := by
  induction inputs generalizing t golden faulty with
  | nil => rfl
  | cons ys inputs ih =>
    rw [List.cons_append, replayFrom, ih, replayFrom, runFrom, List.length_cons,
      Nat.add_right_comm, Nat.add_assoc]
    rfl

theorem replayFrom_snoc (t : Nat) (golden faulty : Table Bool) (inputs : List (List Bool))
    (xs : List Bool) :
    f.replayFrom c t golden faulty (inputs ++ [xs]) =
      f.replayFrom c t golden faulty inputs ++
        [f.observe c (t + inputs.length) (f.runFrom c t golden faulty inputs) xs] :=
  f.replayFrom_append c t golden faulty inputs [xs]

theorem runFrom_snoc (t : Nat) (golden faulty : Table Bool) (inputs : List (List Bool))
    (xs : List Bool) :
    f.runFrom c t golden faulty (inputs ++ [xs]) =
      let o := f.observe c (t + inputs.length) (f.runFrom c t golden faulty inputs) xs
      (o.golden.advance c, o.faulty.advance c) := by
  induction inputs generalizing t golden faulty with
  | nil => rfl
  | cons ys inputs ih =>
    rw [List.cons_append, runFrom, ih, runFrom, List.length_cons, Nat.add_right_comm,
      Nat.add_assoc]

theorem replay_snoc (inputs : List (List Bool)) (xs : List Bool) :
    f.replay c (inputs ++ [xs]) =
      f.replay c inputs ++ [f.observe c inputs.length (f.run c inputs) xs] := by
  rw [replay, replayFrom_snoc, Nat.zero_add]
  rfl

theorem run_snoc (inputs : List (List Bool)) (xs : List Bool) :
    f.run c (inputs ++ [xs]) =
      ((f.observe c inputs.length (f.run c inputs) xs).golden.advance c,
        (f.observe c inputs.length (f.run c inputs) xs).faulty.advance c) := by
  rw [run, runFrom_snoc, Nat.zero_add]
  rfl

theorem length_replayFrom (t : Nat) (golden faulty : Table Bool) (inputs : List (List Bool)) :
    (f.replayFrom c t golden faulty inputs).length = inputs.length := by
  induction inputs generalizing t golden faulty with
  | nil => rfl
  | cons xs inputs ih => rw [replayFrom, List.length_cons, ih, List.length_cons]

@[simp]
theorem length_replay (inputs : List (List Bool)) : (f.replay c inputs).length = inputs.length :=
  f.length_replayFrom c 0 _ _ inputs

theorem replayFrom_take (t : Nat) (golden faulty : Table Bool) (inputs : List (List Bool))
    (n : Nat) :
    f.replayFrom c t golden faulty (inputs.take n) =
      (f.replayFrom c t golden faulty inputs).take n := by
  induction inputs generalizing t golden faulty n with
  | nil => simp [replayFrom]
  | cons xs inputs ih =>
    cases n with
    | zero => rfl
    | succ n => rw [List.take_succ_cons, replayFrom, ih, replayFrom, List.take_succ_cons]

theorem replay_take (inputs : List (List Bool)) (n : Nat) :
    f.replay c (inputs.take n) = (f.replay c inputs).take n :=
  f.replayFrom_take c 0 _ _ inputs n

theorem getElem?_replay_take (inputs : List (List Bool)) {n i : Nat} (h : i < n) :
    (f.replay c (inputs.take n))[i]? = (f.replay c inputs)[i]? := by
  rw [replay_take, List.getElem?_take_of_lt h]

theorem getLast?_replay_take {inputs : List (List Bool)} {i : Nat} (hi : i < inputs.length) :
    (f.replay c (inputs.take (i + 1))).getLast? = (f.replay c inputs)[i]? := by
  rw [List.getLast?_eq_getElem?, length_replay, List.length_take_of_le hi, Nat.succ_sub_one,
    getElem?_replay_take _ _ _ (Nat.lt_succ_self i)]

theorem flip_of_length_le {latch : Nat} (h : c.latches.length ≤ latch) (t : Table Bool) :
    t.flip c latch = t := by
  rw [Table.flip, Table.flip?, List.getElem?_eq_none h]
  rfl

/-- Nothing happens as long as the time has not come, or if there is no such latch. -/
theorem runFrom_same {t : Nat} {table : Table Bool} {inputs : List (List Bool)}
    (h : t + inputs.length ≤ f.time ∨ c.latches.length ≤ f.latch) :
    (f.runFrom c t table table inputs).1 = (f.runFrom c t table table inputs).2 := by
  induction inputs generalizing t table with
  | nil => rfl
  | cons xs inputs ih =>
    have hStrike : f.strike c t table = table := by
      rw [strike]
      split
      · rename_i hTime
        rcases h with h | h
        · rw [List.length_cons] at h
          omega
        · exact flip_of_length_le c h table
      · rfl
    rw [runFrom, hStrike]
    apply ih
    rw [List.length_cons] at h
    exact h.imp_left fun h => by omega

theorem run_same {inputs : List (List Bool)}
    (h : inputs.length ≤ f.time ∨ c.latches.length ≤ f.latch) :
    (f.run c inputs).1 = (f.run c inputs).2 :=
  f.runFrom_same c (h.imp_left fun h => by omega)

theorem strike_same {t : Nat} (h : t < f.time ∨ c.latches.length ≤ f.latch) (table : Table Bool) :
    f.strike c t table = table := by
  rw [strike]
  split
  · rcases h with h | h
    · omega
    · exact flip_of_length_le c h table
  · rfl

theorem observe_same {inputs : List (List Bool)} (xs : List Bool)
    (h : inputs.length < f.time ∨ c.latches.length ≤ f.latch) :
    (f.observe c inputs.length (f.run c inputs) xs).golden =
      (f.observe c inputs.length (f.run c inputs) xs).faulty := by
  rw [observe, strike_same c f h, f.run_same c (h.imp_left Nat.le_of_lt)]

theorem getElem?_replay_snoc (inputs : List (List Bool)) (xs : List Bool) :
    (f.replay c (inputs ++ [xs]))[inputs.length]? =
      some (f.observe c inputs.length (f.run c inputs) xs) := by
  rw [replay_snoc, List.getElem?_append_right (by simp)]
  simp

theorem getElem?_replay {inputs : List (List Bool)} {i : Nat} {xs : List Bool}
    (h : inputs[i]? = some xs) :
    (f.replay c inputs)[i]? = some (f.observe c i (f.run c (inputs.take i)) xs) := by
  obtain ⟨hi, rfl⟩ := List.getElem?_eq_some_iff.mp h
  have hLength : (inputs.take i).length = i := List.length_take_of_le (Nat.le_of_lt hi)
  have hSnoc := f.getElem?_replay_snoc c (inputs.take i) inputs[i]
  rw [← List.take_succ_eq_append_getElem hi, hLength] at hSnoc
  rw [← f.getElem?_replay_take c inputs (Nat.lt_succ_self i)]
  exact hSnoc

/-- Before the flip the two runs are observed to be the same. -/
theorem golden_eq_faulty {inputs : List (List Bool)} {i : Nat} {o : Observation}
    (h : (f.replay c inputs)[i]? = some o) (hi : i < f.time ∨ c.latches.length ≤ f.latch) :
    o.golden = o.faulty := by
  have hLength : i < inputs.length := by
    have := (List.getElem?_eq_some_iff.mp h).1
    rwa [length_replay] at this
  have hTake : (inputs.take i).length = i := List.length_take_of_le (Nat.le_of_lt hLength)
  rw [f.getElem?_replay c (List.getElem?_eq_getElem hLength)] at h
  obtain rfl := Option.some.inj h
  have hSame := @observe_same c f (inputs.take i) inputs[i]
  rw [hTake] at hSame
  exact hSame hi

theorem runFrom_fst (t : Nat) (golden faulty : Table Bool)
    (inputs : List (List Bool)) :
    (f.runFrom c t golden faulty inputs).1 = c.runFrom golden inputs := by
  induction inputs generalizing t golden faulty with
  | nil => rfl
  | cons xs inputs ih =>
    rw [runFrom, ih]
    rfl

theorem run_fst (inputs : List (List Bool)) :
    (f.run c inputs).1 = c.run inputs :=
  f.runFrom_fst c 0 _ _ inputs

theorem map_golden_replayFrom (t : Nat) (golden faulty : Table Bool)
    (inputs : List (List Bool)) :
    (f.replayFrom c t golden faulty inputs).map Observation.golden =
      c.tablesFrom golden inputs := by
  induction inputs generalizing t golden faulty with
  | nil => rfl
  | cons xs inputs ih =>
    rw [replayFrom, List.map_cons, ih]
    rfl

theorem map_golden_replay (inputs : List (List Bool)) :
    (f.replay c inputs).map Observation.golden = c.tables inputs :=
  f.map_golden_replayFrom c 0 _ _ inputs

variable {c f} in
theorem golden_alarm_of_calm {inputs : List (List Bool)} (h : c.Calm inputs) {o : Observation}
    (ho : o ∈ f.replay c inputs) : o.golden.alarm c = false := by
  refine h o.golden ?_
  rw [← f.map_golden_replay c inputs]
  exact List.mem_map_of_mem ho

end Fault

end SoftError

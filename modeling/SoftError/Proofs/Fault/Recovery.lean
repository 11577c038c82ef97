import Mathlib.Data.List.Induction
import SoftError.Proofs.Fault.Replay

/-!
# Recovery from a fault

The two runs of a replay differ in their latches only, and in the gates that depend on them. So
once both move on to the same state after the flip, they are the same from then on.
-/

namespace SoftError

namespace Table

variable {c : Circuit} {t t' : Table Bool}

theorem state_strike (c : Circuit) (f : Fault) (n : Nat) (t : Table Bool) :
    (f.strike c n t).state c =
      (t.state c).mapIdx fun j b => b ^^ (decide (j = f.latch) && decide (n = f.time)) := by
  rw [Fault.strike]
  split
  · rename_i hTime
    rw [state_flip, decide_eq_true hTime]
    simp only [Bool.and_true]
  · rename_i hTime
    rw [decide_eq_false hTime]
    simp only [Bool.and_false, Bool.xor_false]
    apply List.ext_getElem <;> simp

theorem get_strike_of_notMem {x : Nat} (h : x ∉ c.latches.map fun l => l.signal.var)
    (f : Fault) (n : Nat) (t : Table Bool) : (f.strike c n t).get x = t.get x := by
  rw [Fault.strike]
  split
  · exact get_flip_of_notMem h t f.latch
  · rfl

theorem SameRest.strike (h : SameRest c t t') (f : Fault) (n : Nat) :
    SameRest c t (f.strike c n t') := by
  intro x hGate hLatch
  rw [get_strike_of_notMem hLatch]
  exact h x hGate hLatch

end Table

namespace Fault

variable (c : Circuit) (f : Fault)

theorem sameRest_run (inputs : List (List Bool)) :
    Table.SameRest c (f.run c inputs).1 (f.run c inputs).2 := by
  induction inputs using List.reverseRecOn with
  | nil => exact fun _ _ _ => rfl
  | append_singleton inputs xs ih =>
    rw [run_snoc]
    exact ((ih.strike f inputs.length).step xs).advance

theorem get_run_zero (inputs : List (List Bool)) : (f.run c inputs).2.get 0 = false := by
  have hGolden := c.tidy_run inputs 0 c.zero_notMem_definitions
  rw [← f.sameRest_run c inputs 0 c.zero_notMem_gates c.zero_notMem_latches, run_fst, hGolden]

variable {c f} {inputs : List (List Bool)} {i j : Nat} {o o' : Observation}

/-- Runs that start the same after the flip stay the same. -/
theorem eq_of_mem_replayFrom {t : Nat} {golden faulty : Table Bool} (hTime : f.time < t)
    (h : Table.SameStart c golden faulty) (ho : o ∈ f.replayFrom c t golden faulty inputs)
    (v : Nat) : o.golden.get v = o.faulty.get v := by
  induction inputs generalizing t golden faulty with
  | nil => cases ho
  | cons xs inputs ih =>
    have hStrike : f.strike c t faulty = faulty := if_neg (Nat.ne_of_gt hTime)
    rw [replayFrom, hStrike] at ho
    rcases List.mem_cons.mp ho with rfl | ho
    · exact h.get_step xs v
    · exact ih (Nat.lt_succ_of_lt hTime) (h.next xs) ho

theorem run_take_succ {xs : List Bool} (h : inputs[i]? = some xs) :
    f.run c (inputs.take (i + 1)) =
      ((f.observe c i (f.run c (inputs.take i)) xs).golden.advance c,
        (f.observe c i (f.run c (inputs.take i)) xs).faulty.advance c) := by
  obtain ⟨hi, rfl⟩ := List.getElem?_eq_some_iff.mp h
  rw [List.take_succ_eq_append_getElem hi, run_snoc, List.length_take_of_le (Nat.le_of_lt hi)]

/-- From equal states on, the runs are the same. -/
theorem sameStart_run (ho : (f.replay c inputs)[i]? = some o) (hTime : f.time ≤ i)
    (hState : o.golden.nextState c = o.faulty.nextState c) (hj : i < j)
    (hLength : j ≤ inputs.length) :
    Table.SameStart c (f.run c (inputs.take j)).1 (f.run c (inputs.take j)).2 := by
  induction j with
  | zero => omega
  | succ j ih =>
    have hInput := List.getElem?_eq_getElem (Nat.lt_of_succ_le hLength)
    rw [run_take_succ hInput]
    by_cases hEq : i = j
    · subst hEq
      rw [f.getElem?_replay c hInput] at ho
      obtain rfl := Option.some.inj ho
      exact (((sameRest_run c f _).strike f i).step _).sameStart hState
    · have hStart := ih (by omega) (by omega)
      have hStrike : ∀ t, f.strike c j t = t := fun t => if_neg (by omega)
      rw [observe, hStrike]
      exact hStart.next _

theorem eq_of_nextState_eq (ho : (f.replay c inputs)[i]? = some o) (hTime : f.time ≤ i)
    (hState : o.golden.nextState c = o.faulty.nextState c)
    (ho' : (f.replay c inputs)[j]? = some o') (hj : i < j) (v : Nat) :
    o'.golden.get v = o'.faulty.get v := by
  have hLength : j < inputs.length := by
    have hLt := (List.getElem?_eq_some_iff.mp ho').1
    rwa [length_replay] at hLt
  have hStart := sameStart_run ho hTime hState hj (Nat.le_of_lt hLength)
  rw [f.getElem?_replay c (List.getElem?_eq_getElem hLength)] at ho'
  obtain rfl := Option.some.inj ho'
  have hStrike : ∀ t, f.strike c j t = t := fun t => if_neg (by omega)
  rw [observe, hStrike]
  exact hStart.get_step _ v

end Fault

end SoftError

import SoftError.Proofs.Fault.Recovery

/-!
# Replays from the state that a run has reached

The future of a run depends on its state only, as the next step overwrites the inputs and
evaluates the gates anew. So what a replay shows from the flip on is the same as when it
starts with the flip, in the state of the golden run.
-/

namespace SoftError

namespace Table

variable {c : Circuit} {t t' : Table Bool}

theorem SameState.strike (h : SameState c t t') (f : Fault) (n : Nat) :
    SameState c (f.strike c n t) (f.strike c n t') := by
  intro x hGate hInput
  rw [Fault.strike, Fault.strike]
  split
  · by_cases hLatch : x ∈ c.latches.map fun l => l.signal.var
    · obtain ⟨l, hl, rfl⟩ := List.mem_map.mp hLatch
      obtain ⟨i, hi⟩ := List.mem_iff_getElem?.mp hl
      rw [get_flip_latch hi, get_flip_latch hi, h _ hGate hInput]
    · rw [get_flip_of_notMem hLatch, get_flip_of_notMem hLatch, h _ hGate hInput]
  · exact h x hGate hInput

end Table

/-- Two observations of the same values. -/
structure Observation.Same (o o' : Observation) : Prop where
  golden : ∀ v, o.golden.get v = o'.golden.get v
  faulty : ∀ v, o.faulty.get v = o'.faulty.get v

namespace Observation.Same

variable {o o' : Observation} (h : o.Same o') (c : Circuit)
include h

theorem agrees_eq : o.agrees c = o'.agrees c := by
  rw [agrees, agrees, Table.observed_congr h.golden, Table.observed_congr h.faulty]

theorem converges_eq (reserved : Nat) : o.converges c reserved = o'.converges c reserved := by
  rw [converges, converges, Table.nextState_congr h.golden, Table.nextState_congr h.faulty]

end Observation.Same

namespace Fault

variable {c : Circuit} {f : Fault} {inputs : List (List Bool)}

theorem same_replayFrom {n : Nat} {golden golden' faulty faulty' : Table Bool}
    (hGolden : Table.SameState c golden golden') (hFaulty : Table.SameState c faulty faulty')
    (hWidth : ∀ xs ∈ inputs, xs.length = c.inputs.length) :
    List.Forall₂ Observation.Same (f.replayFrom c n golden faulty inputs)
      (f.replayFrom c n golden' faulty' inputs) := by
  induction inputs generalizing n golden golden' faulty faulty' with
  | nil => exact .nil
  | cons xs inputs ih =>
    obtain ⟨hLength, hWidth⟩ := List.forall_mem_cons.mp hWidth
    have hStrike := hFaulty.strike f n
    exact .cons ⟨hGolden.get_step hLength, hStrike.get_step hLength⟩
      (ih (hGolden.next hLength) (hStrike.next hLength) hWidth)

/-- Only the time from now on matters. -/
theorem replayFrom_shift (latch time n t : Nat) (golden faulty : Table Bool) :
    (⟨latch, n + time⟩ : Fault).replayFrom c (n + t) golden faulty inputs =
      (⟨latch, time⟩ : Fault).replayFrom c t golden faulty inputs := by
  induction inputs generalizing t golden faulty with
  | nil => rfl
  | cons xs inputs ih =>
    have hStrike : (⟨latch, n + time⟩ : Fault).strike c (n + t) faulty =
        (⟨latch, time⟩ : Fault).strike c t faulty :=
      if_congr Nat.add_left_cancel_iff rfl rfl
    rw [replayFrom, hStrike, Nat.add_assoc, ih]
    rfl

theorem drop_replay (latch : Nat) {time : Nat} (hTime : time ≤ inputs.length) :
    ((⟨latch, time⟩ : Fault).replay c inputs).drop time =
      (⟨latch, 0⟩ : Fault).replayFrom c 0 (c.run (inputs.take time)) (c.run (inputs.take time))
        (inputs.drop time) := by
  obtain ⟨f, hf⟩ : ∃ f : Fault, f = ⟨latch, time⟩ := ⟨_, rfl⟩
  have hLength : (inputs.take time).length = time := List.length_take_of_le hTime
  -- up to the flip the faulty run is the golden one
  have hRun : (f.run c (inputs.take time)).2 = c.run (inputs.take time) := by
    rw [← f.run_same c (.inl (hf ▸ Nat.le_of_eq hLength)), run_fst]
  have hAppend : f.replay c inputs = f.replay c (inputs.take time) ++
      f.replayFrom c time (c.run (inputs.take time)) (c.run (inputs.take time))
        (inputs.drop time) := by
    calc f.replay c inputs
        = f.replay c (inputs.take time ++ inputs.drop time) := by rw [List.take_append_drop]
      _ = f.replay c (inputs.take time) ++ f.replayFrom c (0 + (inputs.take time).length)
            (f.run c (inputs.take time)).1 (f.run c (inputs.take time)).2 (inputs.drop time) :=
          f.replayFrom_append c 0 _ _ _ _
      _ = _ := by rw [run_fst, hRun, hLength, Nat.zero_add]
  rw [← hf, hAppend, List.drop_left' ((f.length_replay c _).trans hLength), hf]
  exact replayFrom_shift latch 0 time 0 _ _

/-- The flip has the same effects in the state of the golden run. -/
theorem same_drop_replay (latch : Nat) {time : Nat} (hTime : time ≤ inputs.length)
    (hWidth : ∀ xs ∈ inputs, xs.length = c.inputs.length) :
    List.Forall₂ Observation.Same (((⟨latch, time⟩ : Fault).replay c inputs).drop time)
      ((⟨latch, 0⟩ : Fault).replayFrom c 0
        ((Table.initial c).setState c ((c.run (inputs.take time)).state c))
        ((Table.initial c).setState c ((c.run (inputs.take time)).state c))
        (inputs.drop time)) := by
  have hState := c.sameState_setState (inputs.take time)
  rw [drop_replay latch hTime]
  exact same_replayFrom hState hState fun xs hxs => hWidth xs (List.mem_of_mem_drop hxs)

end Fault

end SoftError

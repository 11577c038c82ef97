import SoftError.Proofs.Fault.Injection

/-!
# Flips that go unnoticed

A latch is inverted in some state, which need not be reachable. The flip goes unnoticed if the
golden run raises no alarm, and the other run shows a difference before it raises one: at the
outputs, or after the last step in the states.
-/

namespace SoftError

namespace Protection

variable (c : Circuit)

/-- The runs from a state with and without an inverted latch. -/
def flipReplay (latch : Nat) (state : List Bool) (inputs : List (List Bool)) : List Observation :=
  Fault.replayFrom c ⟨latch, 0⟩ 0 ((Table.initial c).setState c state)
    ((Table.initial c).setState c state) inputs

/-- A step shows a difference, and no alarm is raised up to it. -/
def Unnoticed (reserved : Nat) (os : List Observation) : Prop :=
  ∃ i o, os[i]? = some o ∧ (∀ o' ∈ os.take (i + 1), o'.faulty.alarm c = false) ∧
    (o.agrees c = false ∨ i + 1 = os.length ∧ o.converges c reserved = false)

structure Exposes (reserved k latch : Nat) (state : List Bool) (inputs : List (List Bool)) :
    Prop where
  state_length : state.length = c.latches.length
  length : inputs.length = k
  input_length : ∀ xs ∈ inputs, xs.length = c.inputs.length
  quiet : ∀ o ∈ flipReplay c latch state inputs, o.golden.alarm c = false
  unnoticed : Unnoticed c reserved (flipReplay c latch state inputs)

/-- The flip of the latch can go unnoticed within `k` steps. -/
def Exposed (reserved k latch : Nat) : Prop :=
  ∃ state inputs, Exposes c reserved k latch state inputs

variable {c} {reserved : Nat}

theorem not_unnoticed_nil : ¬ Unnoticed c reserved [] := by
  rintro ⟨i, o, ho, _⟩
  cases ho

theorem unnoticed_cons {o : Observation} {os : List Observation} :
    Unnoticed c reserved (o :: os) ↔ o.faulty.alarm c = false ∧
      ((o.agrees c = false ∨ os = [] ∧ o.converges c reserved = false) ∨
        Unnoticed c reserved os) := by
  constructor
  · rintro ⟨i, o', ho', hLow, hDiffers⟩
    refine ⟨hLow o (by simp), ?_⟩
    cases i with
    | zero =>
      obtain rfl : o = o' := Option.some.inj ho'
      refine .inl (hDiffers.imp_right fun ⟨hLength, hStates⟩ => ⟨?_, hStates⟩)
      exact List.length_eq_zero_iff.mp (Nat.succ.inj hLength).symm
    | succ i =>
      refine .inr ⟨i, o', ho', fun p hp => hLow p (List.mem_cons_of_mem _ hp), ?_⟩
      exact hDiffers.imp_right fun ⟨hLength, hStates⟩ => ⟨Nat.succ.inj hLength, hStates⟩
  · rintro ⟨hLow, hDiffers | ⟨i, o', ho', hRest, hDiffers⟩⟩
    · refine ⟨0, o, rfl, fun p hp => ?_, hDiffers.imp_right fun ⟨hNil, hStates⟩ => ?_⟩
      · obtain rfl : p = o := by simpa using hp
        exact hLow
      · exact ⟨by rw [hNil]; rfl, hStates⟩
    · refine ⟨i + 1, o', ho', ?_, hDiffers.imp_right fun ⟨hLength, hStates⟩ => ?_⟩
      · rw [List.take_succ_cons]
        exact List.forall_mem_cons.mpr ⟨hLow, hRest⟩
      · exact ⟨congrArg (· + 1) hLength, hStates⟩

/-- The step after the flip, next to that of the golden run. -/
def flipStep (c : Circuit) (latch : Nat) (state xs : List Bool) : Observation :=
  Fault.observe c ⟨latch, 0⟩ 0
    ((Table.initial c).setState c state, (Table.initial c).setState c state) xs

theorem exposed_one_iff {latch : Nat} : Exposed c reserved 1 latch ↔
    ∃ state xs, state.length = c.latches.length ∧ xs.length = c.inputs.length ∧
      (flipStep c latch state xs).golden.alarm c = false ∧
      (flipStep c latch state xs).faulty.alarm c = false ∧
      ((flipStep c latch state xs).agrees c = false ∨
        (flipStep c latch state xs).converges c reserved = false) := by
  have hReplay : ∀ state xs, flipReplay c latch state [xs] = [flipStep c latch state xs] :=
    fun _ _ => rfl
  constructor
  · rintro ⟨state, inputs, hState, hLength, hInputs, hQuiet, hUnnoticed⟩
    obtain ⟨xs, rfl⟩ := List.length_eq_one_iff.mp hLength
    rw [hReplay] at hQuiet hUnnoticed
    rw [unnoticed_cons] at hUnnoticed
    refine ⟨state, xs, hState, hInputs xs List.mem_cons_self, hQuiet _ List.mem_cons_self,
      hUnnoticed.1, ?_⟩
    exact (hUnnoticed.2.resolve_right not_unnoticed_nil).imp_right And.right
  · rintro ⟨state, xs, hState, hInputs, hQuiet, hLow, hDiffers⟩
    refine ⟨state, [xs], hState, rfl, List.forall_mem_singleton.mpr hInputs, ?_, ?_⟩
    · rw [hReplay]
      exact List.forall_mem_singleton.mpr hQuiet
    · rw [hReplay, unnoticed_cons]
      exact ⟨hLow, .inl (hDiffers.imp_right fun h => ⟨rfl, h⟩)⟩

/-- Without a flip there is nothing to see. -/
theorem flipStep_of_length_le {latch : Nat} (h : c.latches.length ≤ latch) (state xs : List Bool) :
    (flipStep c latch state xs).faulty = (flipStep c latch state xs).golden := by
  change (Fault.strike c ⟨latch, 0⟩ 0 _).step c xs = Table.step c xs _
  rw [Fault.strike, if_pos rfl, Fault.flip_of_length_le c h]

end Protection

/-- The next step of a replay, where a fault may strike. -/
theorem Fault.replayFrom_cons (c : Circuit) (f : Fault) (n : Nat) (t tf : Table Bool)
    (xs : List Bool) (inputs : List (List Bool)) :
    f.replayFrom c n t tf (xs :: inputs) = f.observe c n (t, tf) xs ::
      f.replayFrom c (n + 1) ((f.observe c n (t, tf) xs).golden.advance c)
        ((f.observe c n (t, tf) xs).faulty.advance c) inputs := rfl

theorem Fault.replayFrom_eq_nil_iff {c : Circuit} {f : Fault} {n : Nat} {t tf : Table Bool}
    {inputs : List (List Bool)} : f.replayFrom c n t tf inputs = [] ↔ inputs = [] := by
  rw [← List.length_eq_zero_iff, length_replayFrom, List.length_eq_zero_iff]

namespace Table

variable {c : Circuit} {i : Nat} {latch : Latch}

/-- Inverting an entry of the state inverts the latch. -/
theorem get_setState_modify (h : c.latches[i]? = some latch) (t : Table Bool) {state : List Bool}
    (hLength : state.length = c.latches.length) (v : Nat) :
    (t.setState c (state.modify i not)).get v = ((t.setState c state).flip c i).get v := by
  have hModify : state.modify i not = state.set i !(t.setState c state).get latch.signal.var := by
    rw [List.modify_eq_set_getElem?, get_setState h t hLength]
    rfl
  rw [hModify, get_setState_set h t hLength, flip_eq h]

end Table

end SoftError

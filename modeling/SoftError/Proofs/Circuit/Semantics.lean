import SoftError.Proofs.Circuit.Runs

/-!
# What a step computes

The gates of a circuit are equations between the values of its variables. For given inputs, a
given state and the constant there is one solution. A step computes it, whatever earlier moves
have left in the gates, and the next state is then taken over at once. So the state decides how
a run goes on.
-/

namespace SoftError

open Table (signalValue)

/-- Values of the variables that satisfy all gates at once. -/
structure Circuit.IsSolution (c : Circuit) (inputs state : List Bool) (v : Nat → Bool) : Prop where
  constant : v 0 = false
  inputs : c.inputs.map (signalValue v) = inputs
  state : (c.latches.map fun l => signalValue v l.signal) = state
  gates : ∀ g ∈ c.gates, signalValue v g.out = (signalValue v g.left && signalValue v g.right)

namespace Table

variable {c : Circuit} {t t' : Table Bool}

theorem state_step (t : Table Bool) (xs : List Bool) : (t.step c xs).state c = t.state c := by
  rw [state_eq, state_eq]
  apply List.map_congr_left
  intro l hl
  rw [get_step_of_notMem (c.latch_notMem_gates hl), setInputs,
    get_setAll_of_notMem (c.latch_notMem_inputs hl)]

section Step

variable {xs : List Bool} (hLength : xs.length = c.inputs.length)
include hLength

theorem inputs_step (t : Table Bool) : c.inputs.map (signalValue (t.step c xs).get) = xs := by
  have hInputs : ∀ s ∈ c.inputs,
      signalValue (t.step c xs).get s = (t.setAll c.inputs xs).get s.var := by
    intro s hs
    rw [signalValue_of_plain (c.input_plain hs), get_step_of_notMem (c.input_notMem_gates hs)]
    rfl
  rw [List.map_congr_left hInputs]
  exact map_get_setAll c.inputs_nodup t hLength

theorem Tidy.isSolution_step (h : t.Tidy c) :
    c.IsSolution xs (t.state c) (t.step c xs).get where
  constant := h.step xs 0 c.zero_notMem_definitions
  inputs := inputs_step hLength t
  state := by
    rw [← state_step t xs]
    exact List.map_congr_left fun l _ => (read_eq_signalValue _ l.signal).symm
  gates g hg := by
    rw [signalValue_of_plain (c.gate_plain hg), ← read_eq_signalValue, ← read_eq_signalValue]
    exact settle_consistent c (t.setInputs c xs) g hg

theorem Tidy.eq_get_step (h : t.Tidy c) {v : Nat → Bool} (hv : c.IsSolution xs (t.state c) v) :
    ∀ x ∈ c.named, v x = (t.step c xs).get x := by
  -- the gates follow from the other variables, and those are given
  apply eq_settle_of_named c _ hv.gates
  intro x hx hGate
  have hStep := h.isSolution_step hLength
  rw [← get_step_of_notMem hGate]
  rcases c.mem_named_iff.mp hx with rfl | hInput | hLatch | hx
  · rw [hv.constant, hStep.constant]
  · obtain ⟨s, hs, rfl⟩ := List.mem_map.mp hInput
    have hSame := List.map_inj_left.mp (hv.inputs.trans hStep.inputs.symm) s hs
    rwa [signalValue_of_plain (c.input_plain hs), signalValue_of_plain (c.input_plain hs)] at hSame
  · obtain ⟨l, hl, rfl⟩ := List.mem_map.mp hLatch
    have hSame := List.map_inj_left.mp (hv.state.trans hStep.state.symm) l hl
    rwa [signalValue_of_plain (c.latch_plain hl), signalValue_of_plain (c.latch_plain hl)] at hSame
  · exact absurd hx hGate

end Step

theorem SameState.state_eq_state (h : SameState c t t') : t.state c = t'.state c := by
  rw [state_eq, state_eq]
  exact List.map_congr_left fun l hl => h _ (c.latch_notMem_gates hl) (c.latch_notMem_inputs hl)

/-- What a step shows from outside. -/
def shown (c : Circuit) (t : Table Bool) : List Bool × List Bool := (t.outputs c, t.state c)

theorem SameState.shown_runs (h : SameState c t t') {inputs : List (List Bool)}
    (hWidth : ∀ xs ∈ inputs, xs.length = c.inputs.length) :
    (c.tablesFrom t inputs).map (shown c) = (c.tablesFrom t' inputs).map (shown c) ∧
      SameState c (c.runFrom t inputs) (c.runFrom t' inputs) := by
  induction inputs generalizing t t' with
  | nil => exact ⟨rfl, h⟩
  | cons xs inputs ih =>
    obtain ⟨hLength, hWidth⟩ := List.forall_mem_cons.mp hWidth
    obtain ⟨hShown, hLast⟩ := ih (h.next hLength) hWidth
    have hStep := h.get_step hLength
    have hFirst : shown c (t.step c xs) = shown c (t'.step c xs) := by
      rw [shown, shown, outputs_congr hStep, state_congr hStep]
    exact ⟨congrArg₂ List.cons hFirst hShown, hLast⟩

/-- The moves of a concrete simulation. -/
inductive Move where
  | reset
  | setInputs (xs : List Bool)
  | step (xs : List Bool)
  | settle
  | setState (xs : List Bool)
  | flip (index : Nat)
  | advance

def Move.apply (c : Circuit) (t : Table Bool) : Move → Table Bool
  | reset => t.reset c
  | setInputs xs => t.setInputs c xs
  | step xs => t.step c xs
  | settle => t.settle c
  | setState xs => t.setState c xs
  | flip index => t.flip c index
  | advance => t.advance c

/-- A table that moves may leave behind, except that the gates may hold anything. -/
def Leftover (c : Circuit) (t : Table Bool) : Prop :=
  ∃ moves : List Move, SameStart c t (moves.foldl (Move.apply c) (initial c))

theorem Tidy.move (h : t.Tidy c) (m : Move) : (m.apply c t).Tidy c := by
  cases m with
  | reset => exact h.setState _
  | setInputs xs => exact h.setInputs xs
  | step xs => exact h.step xs
  | settle => exact h.settle
  | setState xs => exact h.setState xs
  | flip index => exact h.flip index
  | advance => exact h.advance

theorem Tidy.moves (h : t.Tidy c) (moves : List Move) :
    (moves.foldl (Move.apply c) t).Tidy c := by
  induction moves generalizing t with
  | nil => exact h
  | cons m moves ih => exact ih (h.move m)

theorem Leftover.tidy (h : Leftover c t) : t.Tidy c := by
  obtain ⟨moves, hSame⟩ := h
  intro x hx
  rw [hSame x fun hGate => hx (c.mem_definitions_iff.mpr (.inr (.inr hGate)))]
  exact (tidy_initial c).moves moves x hx

/-- A step finds the one solution of the circuit, its state is replaced by the values of the next
signals, and tables of the same state show the same from then on. -/
theorem step_solves (c : Circuit) {t : Table Bool} (ht : Leftover c t) {xs : List Bool}
    (hLength : xs.length = c.inputs.length) :
    c.IsSolution xs (t.state c) (t.step c xs).get ∧
    (∀ v, c.IsSolution xs (t.state c) v → ∀ x ∈ c.named, v x = (t.step c xs).get x) ∧
    ((t.step c xs).advance c).state c = (c.latches.map fun l => (t.step c xs).read l.next) ∧
    (∀ x, x ∉ c.latches.map (fun l => l.signal.var) →
      ((t.step c xs).advance c).get x = (t.step c xs).get x) ∧
    ∀ t', Leftover c t' → t'.state c = t.state c →
      ∀ inputs : List (List Bool), (∀ ys ∈ inputs, ys.length = c.inputs.length) →
        (c.tablesFrom t' inputs).map (shown c) = (c.tablesFrom t inputs).map (shown c) ∧
          (c.runFrom t' inputs).state c = (c.runFrom t inputs).state c := by
  refine ⟨ht.tidy.isSolution_step hLength, fun v => ht.tidy.eq_get_step hLength,
    state_advance c _, fun x hx => get_advance_of_notMem hx _, ?_⟩
  intro t' ht' hState inputs hWidth
  obtain ⟨hShown, hLast⟩ := (ht'.tidy.sameState ht.tidy hState).shown_runs hWidth
  exact ⟨hShown, hLast.state_eq_state⟩

/-- Each latch takes over the other one, the second one complemented. -/
def crossed : Circuit where
  maxVar := 5
  inputs := [⟨2⟩]
  latches := [⟨⟨4⟩, ⟨6⟩, none⟩, ⟨⟨6⟩, ⟨5⟩, none⟩]
  outputs := [⟨10⟩]
  gates := [⟨⟨8⟩, ⟨2⟩, ⟨4⟩⟩, ⟨⟨10⟩, ⟨8⟩, ⟨7⟩⟩]
  wellFormed := ⟨by decide, by decide, by decide, by decide, by decide, by decide,
    ⟨by decide, by decide, trivial⟩⟩

/-- The flip has not reached the gates, and a wrong value is written to the first one. -/
def crossedTable : Table Bool :=
  ([.setState [true, true], .step [true], .flip 1] : List Move).foldl (Move.apply crossed)
    (initial crossed) |>.set 4 false

theorem leftover_crossedTable : Leftover crossed crossedTable := by
  refine ⟨[.setState [true, true], .step [true], .flip 1], fun x hx => ?_⟩
  have hne : 4 ≠ x := by
    rintro rfl
    exact hx (by decide)
  rw [crossedTable, get_set, if_neg hne]

theorem crossedTable_step_solves :
    crossedTable.state crossed = [true, false] ∧ crossedTable.get 4 = false ∧
      crossedTable.get 5 = false ∧
      (∀ v, crossed.IsSolution [true] [true, false] v → v 4 = true ∧ v 5 = true) ∧
      ((crossedTable.step crossed [true]).advance crossed).state crossed = [false, false] ∧
      (crossed.tablesFrom ((initial crossed).setState crossed [true, false])
          [[true], [false]]).map (shown crossed) =
        (crossed.tablesFrom crossedTable [[true], [false]]).map (shown crossed) := by
  have hState : crossedTable.state crossed = [true, false] := by decide +kernel
  obtain ⟨-, hUnique, hNext, -, hRuns⟩ :=
    step_solves crossed leftover_crossedTable (show [true].length = 1 from rfl)
  rw [hState] at hUnique hRuns
  have hStart : Leftover crossed ((initial crossed).setState crossed [true, false]) :=
    ⟨[.setState [true, false]], fun _ _ => rfl⟩
  refine ⟨hState, by decide +kernel, by decide +kernel, fun v hv => ?_, ?_, ?_⟩
  · have h4 : (crossedTable.step crossed [true]).get 4 = true := by decide +kernel
    have h5 : (crossedTable.step crossed [true]).get 5 = true := by decide +kernel
    rw [hUnique v hv 4 (by decide), hUnique v hv 5 (by decide)]
    exact ⟨h4, h5⟩
  · rw [hNext]
    decide +kernel
  · exact (hRuns _ hStart (by decide +kernel) _ (by decide)).1

end Table

end SoftError

import Mathlib.Algebra.Group.Nat.Defs
import Mathlib.Data.Set.Function
import SoftError.Proofs.Encoding.Transition

/-!
# The transition relation as a function

An assignment that pins the constant satisfies the transition relation if its gates have the
values that a step of the circuit computes from its inputs and latches. So inputs and latches
determine the rest, and the literals of the relation are read as the signals of that step. All
literals are words of 32 bits, one for each signal.
-/

namespace SoftError

namespace Signal

theorem eq_of_var_of_negated {s s' : Signal} (hVar : s.var = s'.var)
    (hSign : s.negated = s'.negated) : s = s' := by
  obtain ⟨code⟩ := s
  obtain ⟨code'⟩ := s'
  simp only [var] at hVar
  simp only [negated, beq_eq_beq] at hSign
  exact congrArg Signal.mk (by omega)

/-- The other signal of the same variable. -/
def complement (s : Signal) : Signal := ⟨if s.negated then s.code - 1 else s.code + 1⟩

theorem var_complement (s : Signal) : s.complement.var = s.var := by
  simp only [complement, negated, var, beq_iff_eq]
  split <;> omega

theorem negated_complement (s : Signal) : s.complement.negated = !s.negated := by
  rw [Bool.eq_not, Ne, Bool.eq_iff_iff]
  simp only [complement, negated, beq_iff_eq]
  split <;> omega

theorem positive_lit (s : Signal) : s.lit.positive = !s.negated := by
  rw [lit, Lit.positive_withSign]

theorem lit_complement (s : Signal) : s.complement.lit = -s.lit := by
  apply Lit.eq_of_var_of_positive
  · rw [var_lit, var_complement, Lit.var_neg, var_lit]
  · rw [positive_lit, negated_complement, Lit.positive_neg, positive_lit]

theorem lit_injective : Function.Injective lit := by
  intro s s' h
  apply eq_of_var_of_negated
  · have hVar := congrArg Lit.var h
    rw [var_lit, var_lit] at hVar
    exact Nat.succ.inj hVar
  · have hSign := congrArg Lit.positive h
    rw [positive_lit, positive_lit] at hSign
    exact Bool.not_inj hSign

end Signal

namespace Circuit

variable {c : Circuit}

theorem le_maxVar_of_mem_named {x : Nat} (h : x ∈ c.named) : x ≤ c.maxVar := by
  rcases List.mem_cons.mp h with rfl | h
  · exact Nat.zero_le _
  · obtain ⟨s, hs, rfl⟩ := List.mem_map.mp h
    exact c.wellFormed.var_le s hs

theorem var_le_maxVar {s : Signal} (h : s ∈ c.definitions ++ c.uses) : s.var ≤ c.maxVar :=
  le_maxVar_of_mem_named
    ((List.mem_append.mp h).elim c.mem_named_of_definitions c.mem_named_of_uses)

end Circuit

namespace Transition

/-- The step of the circuit on the inputs and latches that an assignment gives. -/
def stepOf (c : Circuit) (t : Transition) (start : Table Bool) (ρ : Assignment) : Table Bool :=
  (start.setState c (t.state.map (Lit.holds ρ))).step c (t.inputs.map (Lit.holds ρ))

/-- The literals have the values of the signals. -/
structure Reads (c : Circuit) (t : Transition) (ρ : Assignment) (table : Table Bool) : Prop where
  inputs : t.inputs.map (Lit.holds ρ) = table.inputs c
  outputs : t.outputs.map (Lit.holds ρ) = table.observed c
  alarm : t.alarm.holds ρ = table.alarm c
  state : t.state.map (Lit.holds ρ) = table.state c
  next : t.next.map (Lit.holds ρ) = table.nextState c

/-- The assignments agree apart from the gates. -/
def SameLeaves (c : Circuit) (ρ ρ' : Assignment) : Prop :=
  ∀ x, x ∉ (c.gates.map fun g => g.var + 1) → ρ' x = ρ x

/-- The literals of the signals in the range of the circuit. None is cut off, no two signals share
one, and all variables are within the bound, which fits a signed word. -/
structure Numbers (c : Circuit) (t : Transition) : Prop where
  signals : ∀ s ∈ c.definitions ++ c.uses, s.var ≤ c.maxVar
  word : ∀ s : Signal, s.var ≤ c.maxVar → s.wordLit? = some s.lit ∧ s.lit.var = s.var + 1 ∧
    s.lit.positive = !s.negated ∧ s.lit.var ≤ t.maxVar
  complement : ∀ s : Signal, s.var ≤ c.maxVar → s.complement.wordLit? = s.wordLit?.map (- ·)
  injective : Set.InjOn Signal.wordLit? {s | s.var ≤ c.maxVar}
  relation : ∀ l ∈ t.relation.flatten, l.var ≤ t.maxVar
  maxVar : t.maxVar = c.maxVar + 1
  bound : t.maxVar < 2 ^ 31

variable {c : Circuit} {t : Transition} {start : Table Bool} {ρ : Assignment}

theorem exists_ofCircuit (h : c.outputs ≠ []) :
    ∃ t, ofCircuit c = .ok t ∧ t.maxVar = c.maxVar + 1 := by
  have hAlarm : c.alarm? = some (c.outputs.getLast h) := List.getLast?_eq_some_getLast h
  rw [ofCircuit, hAlarm]
  exact ⟨_, rfl, rfl⟩

theorem numbers_of_ofCircuit (ht : ofCircuit c = .ok t) (hMax : t.maxVar = c.maxVar + 1) :
    Numbers c t := by
  obtain ⟨_, -, hRelation, -⟩ := ofCircuit_eq_ok ht
  have hWord : ∀ s : Signal, s.var ≤ c.maxVar → s.wordLit? = some s.lit := fun s hs =>
    Signal.wordLit?_eq_some (hs.trans c.wellFormed.maxVar_le)
  refine ⟨fun s => Circuit.var_le_maxVar, fun s hs => ⟨hWord s hs, s.var_lit, s.positive_lit, ?_⟩,
    fun s hs => ?_, fun s hs s' hs' hEq => ?_, fun l hl => ?_, hMax, ?_⟩
  · rw [s.var_lit, hMax]
    exact Nat.succ_le_succ hs
  · rw [hWord s hs, hWord s.complement (s.var_complement.symm ▸ hs), s.lit_complement]
    rfl
  · rw [hWord s hs, hWord s' hs'] at hEq
    exact Signal.lit_injective (Option.some.inj hEq)
  · rw [hRelation] at hl
    obtain ⟨x, hx, hVar⟩ := var_of_mem_relation hl
    rw [hVar, hMax]
    exact Nat.succ_le_succ (Circuit.le_maxVar_of_mem_named hx)
  · rw [hMax]
    have hBound := c.wellFormed.maxVar_le
    simp only [Netlist.variableBound] at hBound
    omega

section Step

variable (ht : ofCircuit c = .ok t) (hStart : start.get 0 = false) (hρ : ρ ∈ pinned)
include ht hStart hρ

/-- Before the gates are evaluated, the table has the values of the assignment. -/
theorem eq_get_setInputs {x : Nat} (hx : x ∈ c.named) (hGate : x ∉ c.gates.map Gate.var) :
    ρ (x + 1) = ((start.setState c (t.state.map (Lit.holds ρ))).setInputs c
      (t.inputs.map (Lit.holds ρ))).get x := by
  obtain ⟨_, -, -, hInputs, -, -, hState, -⟩ := ofCircuit_eq_ok ht
  rcases c.mem_named_iff.mp hx with rfl | hx | hx | hx
  · rw [Table.setInputs, Table.get_setAll_of_notMem c.zero_notMem_inputs, Table.setState,
      Table.get_setLatches_of_notMem c.zero_notMem_latches, hStart]
    exact hρ
  · obtain ⟨s, hs, rfl⟩ := List.mem_map.mp hx
    have hLength : (t.inputs.map (Lit.holds ρ)).length = c.inputs.length := by
      rw [hInputs, List.length_map, List.length_map]
    have hValues := Table.map_get_setAll c.inputs_nodup
      (start.setState c (t.state.map (Lit.holds ρ))) hLength
    rw [hInputs, List.map_map] at hValues
    rw [← Signal.holds_lit_of_plain (c.input_plain hs) ρ, hInputs, List.map_map]
    exact (List.map_inj_left.mp hValues s hs).symm
  · obtain ⟨l, hl, rfl⟩ := List.mem_map.mp hx
    have hLength : (t.state.map (Lit.holds ρ)).length = c.latches.length := by
      rw [hState, List.length_map, List.length_map]
    have hValues := Table.map_get_setLatches c.latches_nodup start hLength
    rw [hState, List.map_map] at hValues
    rw [Table.setInputs, Table.get_setAll_of_notMem (c.latch_notMem_inputs hl),
      ← Signal.holds_lit_of_plain (c.latch_plain hl) ρ, hState, List.map_map]
    exact (List.map_inj_left.mp hValues l hl).symm
  · exact absurd hx hGate

theorem eq_get_stepOf (h : ρ ∈ t.relation.models) :
    ∀ x ∈ c.named, ρ (x + 1) = (stepOf c t start ρ).get x := by
  obtain ⟨_, -, hRelation, -⟩ := ofCircuit_eq_ok ht
  rw [hRelation] at h
  exact eq_get_settle h fun x => eq_get_setInputs ht hStart hρ

theorem mem_models_iff_eq_stepOf : ρ ∈ t.relation.models ↔
    ∀ g ∈ c.gates, ρ (g.var + 1) = (stepOf c t start ρ).get g.var := by
  refine ⟨fun h g hg => eq_get_stepOf ht hStart hρ h _ (c.mem_named_of_gates hg), fun h => ?_⟩
  obtain ⟨_, -, hRelation, -⟩ := ofCircuit_eq_ok ht
  rw [hRelation]
  refine mem_models_of_settle (t := (start.setState c (t.state.map (Lit.holds ρ))).setInputs c
    (t.inputs.map (Lit.holds ρ))) fun x hx => ?_
  by_cases hGate : x ∈ c.gates.map Gate.var
  · obtain ⟨g, hg, rfl⟩ := List.mem_map.mp hGate
    exact h g hg
  · rw [Table.settle, Table.get_foldl_evalGate_of_notMem hGate]
    exact eq_get_setInputs ht hStart hρ hx hGate

theorem reads_stepOf (h : ρ ∈ t.relation.models) : Reads c t ρ (stepOf c t start ρ) := by
  obtain ⟨alarm, hAlarm, -, hInputs, hOutputs, hLit, hState, hNext⟩ := ofCircuit_eq_ok ht
  have hRead : ∀ s : Signal, s.var ∈ c.named → s.lit.holds ρ = (stepOf c t start ρ).read s :=
    fun s hs => holds_lit_eq_read (eq_get_stepOf ht hStart hρ h) hs
  constructor
  · rw [hInputs, List.map_map]
    exact List.map_congr_left fun s hs => hRead s (c.mem_named_of_inputs hs)
  · rw [hOutputs, List.map_map]
    exact List.map_congr_left fun s hs => hRead s (c.mem_named_of_uses (c.observed_subset_uses hs))
  · rw [hLit, Table.alarm, hAlarm]
    exact hRead alarm (c.mem_named_of_uses (c.alarm_mem_uses hAlarm))
  · rw [hState, List.map_map]
    exact List.map_congr_left fun l hl => hRead l.signal
      (c.mem_named_of_definitions (c.latch_mem_definitions hl))
  · rw [hNext, List.map_map]
    exact List.map_congr_left fun l hl => hRead l.next (c.mem_named_of_uses (c.next_mem_uses hl))

end Step

/-- Assignments with the same inputs and latches lead to the same step. -/
theorem SameLeaves.stepOf_eq {ρ' : Assignment} (h : SameLeaves c ρ ρ') (ht : ofCircuit c = .ok t)
    (start : Table Bool) : stepOf c t start ρ' = stepOf c t start ρ := by
  obtain ⟨_, -, -, hInputs, -, -, hState, -⟩ := ofCircuit_eq_ok ht
  have hLeaf : ∀ s : Signal, s.var ∉ c.gates.map Gate.var → s.lit.holds ρ' = s.lit.holds ρ := by
    intro s hs
    refine Lit.holds_congr (h _ fun hMem => hs ?_)
    obtain ⟨g, hg, hVar⟩ := List.mem_map.mp hMem
    rw [s.var_lit] at hVar
    exact List.mem_map.mpr ⟨g, hg, Nat.succ.inj hVar⟩
  have hStates : t.state.map (Lit.holds ρ') = t.state.map (Lit.holds ρ) := by
    rw [hState, List.map_map, List.map_map]
    exact List.map_congr_left fun l hl => hLeaf _ (c.latch_notMem_gates hl)
  have hValues : t.inputs.map (Lit.holds ρ') = t.inputs.map (Lit.holds ρ) := by
    rw [hInputs, List.map_map, List.map_map]
    exact List.map_congr_left fun s hs => hLeaf s (c.input_notMem_gates hs)
  rw [stepOf, hStates, hValues, stepOf]

theorem SameLeaves.mem_pinned {ρ' : Assignment} (h : SameLeaves c ρ ρ') (hρ : ρ ∈ pinned) :
    ρ' ∈ pinned := by
  refine (h 1 fun hMem => ?_).trans hρ
  obtain ⟨g, hg, hVar⟩ := List.mem_map.mp hMem
  exact c.wellFormed.var_ne_zero g.out (List.mem_append_right _ (List.mem_map_of_mem hg))
    (Nat.succ.inj hVar)

/-- The assignment with the gates of a table. -/
def withGates (c : Circuit) (table : Table Bool) (ρ : Assignment) : Assignment := fun x =>
  if x ∈ c.gates.map fun g => g.var + 1 then table.get (x - 1) else ρ x

theorem sameLeaves_withGates (c : Circuit) (table : Table Bool) (ρ : Assignment) :
    SameLeaves c ρ (withGates c table ρ) := fun _ hx => if_neg hx

theorem withGates_gate {g : Gate} (hg : g ∈ c.gates) (table : Table Bool) (ρ : Assignment) :
    withGates c table ρ (g.var + 1) = table.get g.var :=
  if_pos (List.mem_map_of_mem (f := fun g : Gate => g.var + 1) hg)

/-- Inputs and latches have one extension to the gates. -/
theorem existsUnique_gates (ht : ofCircuit c = .ok t) (hStart : start.get 0 = false)
    (hρ : ρ ∈ pinned) : ∃! ρ', SameLeaves c ρ ρ' ∧ ρ' ∈ t.relation.models := by
  have hGates : ∀ ρ', SameLeaves c ρ ρ' → (ρ' ∈ t.relation.models ↔
      ∀ g ∈ c.gates, ρ' (g.var + 1) = (stepOf c t start ρ).get g.var) := by
    intro ρ' h
    rw [mem_models_iff_eq_stepOf ht hStart (h.mem_pinned hρ), h.stepOf_eq ht]
  have hSame := sameLeaves_withGates c (stepOf c t start ρ) ρ
  refine ⟨_, ⟨hSame, (hGates _ hSame).mpr fun g hg => withGates_gate hg _ _⟩, ?_⟩
  rintro ρ' ⟨hOther, hModel⟩
  funext x
  by_cases hx : x ∈ c.gates.map fun g => g.var + 1
  · obtain ⟨g, hg, rfl⟩ := List.mem_map.mp hx
    rw [withGates_gate hg]
    exact (hGates ρ' hOther).mp hModel g hg
  · exact (hOther x hx).trans (hSame x hx).symm

theorem get_initial_zero (c : Circuit) : (Table.initial c : Table Bool).get 0 = false := by
  rw [Table.initial, Table.reset, Table.setState,
    Table.get_setLatches_of_notMem c.zero_notMem_latches, Table.get_blankUpTo]
  rfl

/-- A circuit with an output has a transition relation, and this is the graph of its step: the
models that pin the constant have the gates of the step on their inputs and latches, whatever the
table before it held, and their literals are read as its signals. -/
theorem ofCircuit_functional (c : Circuit) (h : c.outputs ≠ []) :
    ∃ t, ofCircuit c = .ok t ∧ Numbers c t ∧
      (∀ ρ ∈ pinned, ∃! ρ', SameLeaves c ρ ρ' ∧ ρ' ∈ t.relation.models) ∧
      ∀ start : Table Bool, start.get 0 = false → ∀ ρ ∈ pinned,
        (ρ ∈ t.relation.models ↔
          ∀ g ∈ c.gates, ρ (g.var + 1) = (stepOf c t start ρ).get g.var) ∧
        (ρ ∈ t.relation.models → Reads c t ρ (stepOf c t start ρ)) := by
  obtain ⟨t, ht, hMax⟩ := exists_ofCircuit h
  refine ⟨t, ht, numbers_of_ofCircuit ht hMax,
    fun ρ hρ => existsUnique_gates ht (get_initial_zero c) hρ,
    fun start hStart ρ hρ => ⟨mem_models_iff_eq_stepOf ht hStart hρ, fun hModel => ?_⟩⟩
  exact reads_stepOf ht hStart hρ hModel

/-- Gates with a complemented, a repeated and a constant fanin, one of which has the last variable
that a circuit may have. The output is high while the input is and the latch is not. -/
def lastVariable : Circuit where
  maxVar := 2147483646
  inputs := [⟨2⟩]
  latches := [⟨⟨4⟩, ⟨9⟩, none⟩]
  outputs := [⟨10⟩, ⟨4294967293⟩]
  gates := [⟨⟨6⟩, ⟨2⟩, ⟨5⟩⟩, ⟨⟨8⟩, ⟨6⟩, ⟨7⟩⟩, ⟨⟨10⟩, ⟨6⟩, ⟨6⟩⟩, ⟨⟨4294967292⟩, ⟨1⟩, ⟨10⟩⟩]
  wellFormed := ⟨by decide, by decide, by decide, by decide, by decide, by decide,
    ⟨by decide, by decide, by decide, by decide, trivial⟩⟩

theorem lastVariable_functional : lastVariable.outputs ≠ [] ∧
    ∃ t, ofCircuit lastVariable = .ok t ∧ t.alarm = ⟨-2147483647, by decide⟩ ∧
      t.alarm.var ≤ t.maxVar ∧
      ∃ ρ ∈ t.relation.models, ρ 2 = true ∧ ρ 3 = false ∧
        t.outputs.map (Lit.holds ρ) = [true] ∧ t.alarm.holds ρ = false ∧
        t.next.map (Lit.holds ρ) = [true] := by
  have hOutputs : lastVariable.outputs ≠ [] := by decide
  obtain ⟨t, ht, hNumbers, hUnique, hStep⟩ := ofCircuit_functional lastVariable hOutputs
  cases ht
  obtain ⟨ρ, ⟨hSame, hModel⟩, -⟩ := hUnique (fun x => x = 2) rfl
  have hReads := (hStep (Table.initial lastVariable) (get_initial_zero _) ρ
    (hSame.mem_pinned rfl)).2 hModel
  rw [hSame.stepOf_eq rfl] at hReads
  refine ⟨hOutputs, _, rfl, rfl, (hNumbers.word ⟨4294967293⟩ (by decide)).2.2.2, ρ, hModel,
    hSame 2 (by decide), hSame 3 (by decide), hReads.outputs.trans ?_, hReads.alarm.trans ?_,
    hReads.next.trans ?_⟩
  · decide +kernel
  · decide +kernel
  · decide +kernel

end Transition

end SoftError

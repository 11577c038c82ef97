import Mathlib.Data.List.Induction
import SoftError.Proofs.Circuit.Settled

/-!
# Runs of a circuit

A run takes a step for each input vector and moves on to the next state. Its future depends on
the state only: the next step overwrites the inputs and evaluates the gates anew, and a
variable that the circuit does not define stays low.
-/

namespace SoftError

namespace Circuit

variable (c : Circuit)

def runFrom (t : Table Bool) (inputs : List (List Bool)) : Table Bool :=
  inputs.foldl (fun t xs => (t.step c xs).advance c) t

/-- The table after the given inputs, from the initial state. -/
def run (inputs : List (List Bool)) : Table Bool := c.runFrom (Table.initial c) inputs

theorem run_snoc (inputs : List (List Bool)) (xs : List Bool) :
    c.run (inputs ++ [xs]) = ((c.run inputs).step c xs).advance c := by
  rw [run, runFrom, List.foldl_append]
  rfl

/-- The tables of the steps of a run. -/
def tablesFrom (t : Table Bool) : List (List Bool) → List (Table Bool)
  | [] => []
  | xs :: rest => t.step c xs :: tablesFrom ((t.step c xs).advance c) rest

def tables (inputs : List (List Bool)) : List (Table Bool) := c.tablesFrom (Table.initial c) inputs

/-- A run without any alarm. -/
def Calm (inputs : List (List Bool)) : Prop := ∀ t ∈ c.tables inputs, t.alarm c = false

instance (inputs : List (List Bool)) : Decidable (c.Calm inputs) :=
  inferInstanceAs (Decidable (∀ t ∈ c.tables inputs, t.alarm c = false))

theorem tablesFrom_take (t : Table Bool) (inputs : List (List Bool)) (n : Nat) :
    c.tablesFrom t (inputs.take n) = (c.tablesFrom t inputs).take n := by
  induction inputs generalizing t n with
  | nil => simp [tablesFrom]
  | cons xs inputs ih =>
    cases n with
    | zero => rfl
    | succ n => rw [List.take_succ_cons, tablesFrom, ih, tablesFrom, List.take_succ_cons]

theorem tables_take (inputs : List (List Bool)) (n : Nat) :
    c.tables (inputs.take n) = (c.tables inputs).take n :=
  c.tablesFrom_take _ inputs n

variable {c} in
theorem Calm.take {inputs : List (List Bool)} (h : c.Calm inputs) (n : Nat) :
    c.Calm (inputs.take n) := by
  rw [Calm, tables_take]
  exact fun t ht => h t (List.mem_of_mem_take ht)

end Circuit

namespace Table

section Congruence

variable {c : Circuit} {t t' : Table Bool} (h : ∀ v, t.get v = t'.get v)
include h

theorem read_congr (s : Signal) : t.read s = t'.read s := by
  rw [read, read, h]

theorem alarm_congr : t.alarm c = t'.alarm c := by
  rw [alarm, alarm]
  cases c.alarm? with
  | none => rfl
  | some s => exact read_congr h s

theorem outputs_congr : t.outputs c = t'.outputs c :=
  List.map_congr_left fun s _ => read_congr h s

theorem observed_congr : t.observed c = t'.observed c :=
  List.map_congr_left fun s _ => read_congr h s

theorem state_congr : t.state c = t'.state c :=
  List.map_congr_left fun l _ => read_congr h l.signal

theorem nextState_congr : t.nextState c = t'.nextState c :=
  List.map_congr_left fun l _ => read_congr h l.next

end Congruence

section Frame

variable {c : Circuit} {x : Nat}

theorem get_setState_of_notMem (h : x ∉ c.latches.map fun l => l.signal.var) (t : Table Bool)
    (xs : List Bool) : (t.setState c xs).get x = t.get x :=
  get_setLatches_of_notMem h t xs

theorem get_advance_of_notMem (h : x ∉ c.latches.map fun l => l.signal.var) (t : Table Bool) :
    (t.advance c).get x = t.get x :=
  get_setState_of_notMem h t _

theorem get_flip_of_notMem (h : x ∉ c.latches.map fun l => l.signal.var) (t : Table Bool)
    (i : Nat) : (t.flip c i).get x = t.get x := by
  rw [flip, flip?]
  cases hLatch : c.latches[i]? with
  | none => rfl
  | some l =>
    have hNe : l.signal.var ≠ x := by
      rintro rfl
      exact h (List.mem_map_of_mem (f := fun l => l.signal.var) (List.mem_of_getElem? hLatch))
    rw [Option.map_some, Option.getD_some, get_set, if_neg hNe]

theorem get_settle_of_notMem (h : x ∉ c.gates.map Gate.var) (t : Table Bool) :
    (t.settle c).get x = t.get x :=
  get_foldl_evalGate_of_notMem h t

theorem get_step_of_notMem (h : x ∉ c.gates.map Gate.var) (xs : List Bool) (t : Table Bool) :
    (t.step c xs).get x = (t.setInputs c xs).get x :=
  get_settle_of_notMem h _

end Frame

section States

variable {c : Circuit}

theorem state_eq (c : Circuit) (t : Table Bool) :
    t.state c = c.latches.map fun l => t.get l.signal.var :=
  List.map_congr_left fun _ hl => read_of_plain (c.latch_plain hl) t

theorem state_setState (t : Table Bool) {xs : List Bool} (h : xs.length = c.latches.length) :
    (t.setState c xs).state c = xs := by
  rw [state_eq]
  exact map_get_setLatches c.latches_nodup t h

theorem state_advance (c : Circuit) (t : Table Bool) :
    (t.advance c).state c = t.nextState c :=
  state_setState t (length_nextState c t)

section Latch

variable {α : Type} {i : Nat} {latch : Latch}

theorem get_setState (h : c.latches[i]? = some latch) (T : Table α) {xs : List α}
    (hLength : xs.length = c.latches.length) :
    xs[i]? = some ((T.setState c xs).get latch.signal.var) := by
  have hMap := map_get_setLatches c.latches_nodup T hLength
  rw [← hMap, List.getElem?_map, h]
  rw [hMap]
  rfl

theorem get_setState_set (h : c.latches[i]? = some latch) (T : Table α) {xs : List α}
    (hLength : xs.length = c.latches.length) (x : α) (v : Nat) :
    (T.setState c (xs.set i x)).get v = ((T.setState c xs).set latch.signal.var x).get v := by
  have hSet : (xs.set i x).length = c.latches.length := by rw [List.length_set, hLength]
  rw [get_set]
  by_cases hv : v ∈ c.latches.map fun l => l.signal.var
  · obtain ⟨l, hl, rfl⟩ := List.mem_map.mp hv
    obtain ⟨j, hj⟩ := List.mem_iff_getElem?.mp hl
    have hNew := get_setState hj T hSet
    by_cases hij : i = j
    · subst hij
      obtain rfl := Option.some.inj (h.symm.trans hj)
      have hi : i < xs.length := by
        rw [hLength]
        exact (List.getElem?_eq_some_iff.mp h).1
      rw [List.getElem?_set_self hi, Option.some_inj] at hNew
      rw [if_pos rfl]
      exact hNew.symm
    · have hVar : latch.signal.var ≠ l.signal.var := fun hEq => hij (c.eq_of_var_eq h hj hEq)
      rw [List.getElem?_set_ne hij, get_setState hj T hLength, Option.some_inj] at hNew
      rw [if_neg hVar]
      exact hNew.symm
  · have hVar : latch.signal.var ≠ v := by
      rintro rfl
      exact hv (List.mem_map_of_mem (f := fun l => l.signal.var) (List.mem_of_getElem? h))
    rw [if_neg hVar, setState, setState, get_setLatches_of_notMem hv, get_setLatches_of_notMem hv]

end Latch

theorem get_setState_state (c : Circuit) (t : Table Bool) (v : Nat) :
    (t.setState c (t.state c)).get v = t.get v := by
  by_cases hv : v ∈ c.latches.map fun l => l.signal.var
  · obtain ⟨l, hl, rfl⟩ := List.mem_map.mp hv
    have hState := state_setState t (length_state c t)
    rw [state_eq] at hState
    exact List.map_inj_left.mp (hState.trans (state_eq c t)) l hl
  · exact get_setState_of_notMem hv t _

theorem get_flip_latch {j : Nat} {l : Latch} (hl : c.latches[j]? = some l) (t : Table Bool)
    (i : Nat) : (t.flip c i).get l.signal.var = (t.get l.signal.var ^^ decide (j = i)) := by
  rw [flip, flip?]
  cases hLatch : c.latches[i]? with
  | none =>
    have hNe : j ≠ i := by
      rintro rfl
      rw [hl] at hLatch
      cases hLatch
    rw [decide_eq_false hNe, Bool.xor_false]
    rfl
  | some l' =>
    rw [Option.map_some, Option.getD_some, get_set]
    by_cases hEq : j = i
    · subst hEq
      obtain rfl : l = l' := Option.some.inj (hl.symm.trans hLatch)
      rw [if_pos rfl, decide_eq_true rfl, Bool.xor_true]
    · have hNe : l'.signal.var ≠ l.signal.var := fun hVar =>
        hEq (c.eq_of_var_eq hl hLatch hVar.symm)
      rw [if_neg hNe, decide_eq_false hEq, Bool.xor_false]

theorem state_flip (c : Circuit) (t : Table Bool) (i : Nat) :
    (t.flip c i).state c = (t.state c).mapIdx fun j b => b ^^ decide (j = i) := by
  rw [state_eq, state_eq]
  apply List.ext_getElem?
  intro j
  rw [List.getElem?_map, List.getElem?_mapIdx, List.getElem?_map]
  cases hl : c.latches[j]? with
  | none => rfl
  | some l => exact congrArg some (get_flip_latch hl t i)

end States

section Agreement

variable (c : Circuit)

/-- The values agree apart from gates and latches. -/
def SameRest (t t' : Table Bool) : Prop :=
  ∀ x, x ∉ c.gates.map Gate.var → x ∉ c.latches.map (fun l => l.signal.var) → t.get x = t'.get x

/-- The values agree apart from gates. -/
def SameStart (t t' : Table Bool) : Prop := ∀ x, x ∉ c.gates.map Gate.var → t.get x = t'.get x

/-- The values agree apart from gates and inputs. -/
def SameState (t t' : Table Bool) : Prop :=
  ∀ x, x ∉ c.gates.map Gate.var → x ∉ c.inputs.map Signal.var → t.get x = t'.get x

variable {c} {t t' : Table Bool}

theorem SameRest.step (h : SameRest c t t') (xs : List Bool) :
    SameRest c (t.step c xs) (t'.step c xs) := by
  intro x hGate hLatch
  rw [get_step_of_notMem hGate, get_step_of_notMem hGate]
  exact get_setAll_congr (h x hGate hLatch) c.inputs xs

theorem SameRest.advance (h : SameRest c t t') : SameRest c (t.advance c) (t'.advance c) := by
  intro x hGate hLatch
  rw [get_advance_of_notMem hLatch, get_advance_of_notMem hLatch]
  exact h x hGate hLatch

theorem SameRest.sameStart (h : SameRest c t t') (hState : t.nextState c = t'.nextState c) :
    SameStart c (t.advance c) (t'.advance c) := by
  intro x hGate
  by_cases hLatch : x ∈ c.latches.map fun l => l.signal.var
  · obtain ⟨l, hl, rfl⟩ := List.mem_map.mp hLatch
    rw [← state_advance, ← state_advance, state_eq, state_eq] at hState
    exact List.map_inj_left.mp hState l hl
  · exact h.advance x hGate hLatch

theorem SameStart.get_step (h : SameStart c t t') (xs : List Bool) (v : Nat) :
    (t.step c xs).get v = (t'.step c xs).get v :=
  settle_congr c (fun x hx => get_setAll_congr (h x hx) c.inputs xs) v

theorem SameStart.next (h : SameStart c t t') (xs : List Bool) :
    SameStart c ((t.step c xs).advance c) ((t'.step c xs).advance c) := by
  have hStep := h.get_step xs
  exact SameRest.sameStart (fun x _ _ => hStep x) (nextState_congr hStep)

theorem SameState.get_step (h : SameState c t t') {xs : List Bool}
    (hLength : xs.length = c.inputs.length) (v : Nat) :
    (t.step c xs).get v = (t'.step c xs).get v := by
  refine settle_congr c (fun x hx => ?_) v
  by_cases hInput : x ∈ c.inputs.map Signal.var
  · obtain ⟨s, hs, rfl⟩ := List.mem_map.mp hInput
    have hMap := (map_get_setAll c.inputs_nodup t hLength).trans
      (map_get_setAll c.inputs_nodup t' hLength).symm
    exact List.map_inj_left.mp hMap s hs
  · rw [setInputs, setInputs, get_setAll_of_notMem hInput, get_setAll_of_notMem hInput]
    exact h x hx hInput

theorem SameState.next (h : SameState c t t') {xs : List Bool}
    (hLength : xs.length = c.inputs.length) :
    SameState c ((t.step c xs).advance c) ((t'.step c xs).advance c) := by
  have hStep := h.get_step hLength
  have hStart := SameRest.sameStart (fun x _ _ => hStep x) (nextState_congr (c := c) hStep)
  exact fun x hGate _ => hStart x hGate

end Agreement

section Tidy

variable (c : Circuit)

/-- A variable without a definition is low. -/
def Tidy (t : Table Bool) : Prop := ∀ x, x ∉ c.definitions.map Signal.var → t.get x = false

variable {c} {t t' : Table Bool}

theorem Tidy.setInputs (h : t.Tidy c) (xs : List Bool) : (t.setInputs c xs).Tidy c := by
  intro x hx
  rw [Table.setInputs,
    get_setAll_of_notMem fun hInput => hx (c.mem_definitions_iff.mpr (.inl hInput))]
  exact h x hx

theorem Tidy.setState (h : t.Tidy c) (xs : List Bool) : (t.setState c xs).Tidy c := by
  intro x hx
  rw [get_setState_of_notMem fun hLatch => hx (c.mem_definitions_iff.mpr (.inr (.inl hLatch)))]
  exact h x hx

theorem Tidy.flip (h : t.Tidy c) (i : Nat) : (t.flip c i).Tidy c := by
  intro x hx
  rw [get_flip_of_notMem fun hLatch => hx (c.mem_definitions_iff.mpr (.inr (.inl hLatch)))]
  exact h x hx

theorem Tidy.settle (h : t.Tidy c) : (t.settle c).Tidy c := by
  intro x hx
  rw [get_settle_of_notMem fun hGate => hx (c.mem_definitions_iff.mpr (.inr (.inr hGate)))]
  exact h x hx

theorem Tidy.step (h : t.Tidy c) (xs : List Bool) : (t.step c xs).Tidy c := (h.setInputs xs).settle

theorem Tidy.advance (h : t.Tidy c) : (t.advance c).Tidy c := h.setState _

theorem tidy_initial (c : Circuit) : (initial c).Tidy c :=
  Tidy.setState (fun x _ => get_blankUpTo c.maxVar _ x) _

/-- The state is all that tables can differ in before a step. -/
theorem Tidy.sameState (h : t.Tidy c) (h' : t'.Tidy c) (hState : t.state c = t'.state c) :
    SameState c t t' := by
  intro x hGate hInput
  by_cases hLatch : x ∈ c.latches.map fun l => l.signal.var
  · obtain ⟨l, hl, rfl⟩ := List.mem_map.mp hLatch
    rw [state_eq, state_eq] at hState
    exact List.map_inj_left.mp hState l hl
  · have hNot : x ∉ c.definitions.map Signal.var := by
      rw [c.mem_definitions_iff]
      rintro (h | h | h) <;> contradiction
    rw [h x hNot, h' x hNot]

end Tidy

end Table

namespace Circuit

variable (c : Circuit)

theorem tidy_run (inputs : List (List Bool)) : (c.run inputs).Tidy c := by
  induction inputs using List.reverseRecOn with
  | nil => exact Table.tidy_initial c
  | append_singleton inputs xs ih =>
    rw [run_snoc]
    exact (ih.step xs).advance

/-- A run goes on as if it had been started in its state. -/
theorem sameState_setState (inputs : List (List Bool)) :
    Table.SameState c (c.run inputs) ((Table.initial c).setState c ((c.run inputs).state c)) := by
  apply (c.tidy_run inputs).sameState ((Table.tidy_initial c).setState _)
  exact (Table.state_setState _ (List.length_map _)).symm

end Circuit

end SoftError

import SoftError.Circuit.Evaluation

/-!
# Values of tables

A table of literals or diagrams stands for a Boolean table as soon as its entries are
evaluated. Every operation on tables commutes with evaluation, so a symbolic run has the
values of the concrete run that makes the same moves.
-/

namespace SoftError

/-- A way to evaluate signal values. -/
structure Evaluation {α : Type} [SignalValue α] (ev : α → Bool) : Prop where
  ofBool : ∀ b, ev (SignalValue.ofBool b) = b
  complement : ∀ x, ev (SignalValue.complement x) = !ev x

/-- A way to evaluate values of gates. -/
structure GateEvaluation {α : Type} [GateValue α] (ev : α → Bool) : Prop extends Evaluation ev where
  and : ∀ x y, ev (GateValue.and x y) = (ev x && ev y)

namespace Table

section All

variable {α : Type} {P Q : α → Prop} {T : Table α}

def All (P : α → Prop) (T : Table α) : Prop := ∀ v, P (T.get v)

theorem All.imp (h : T.All P) (hQ : ∀ x, P x → Q x) : T.All Q := fun v => hQ _ (h v)

theorem All.set (h : T.All P) (v : Nat) {x : α} (hx : P x) : (T.set v x).All P := by
  intro w
  rw [get_set]
  split
  · exact hx
  · exact h w

theorem All.setAll (h : T.All P) (ss : List Signal) {xs : List α} (hxs : ∀ x ∈ xs, P x) :
    (T.setAll ss xs).All P := by
  induction ss generalizing T xs with
  | nil => exact h
  | cons s ss ih =>
    cases xs with
    | nil => exact h
    | cons x xs =>
      obtain ⟨hx, hxs⟩ := List.forall_mem_cons.mp hxs
      exact ih (h.set s.var hx) hxs

theorem setLatches_eq_setAll (T : Table α) (ls : List Latch) (xs : List α) :
    T.setLatches ls xs = T.setAll (ls.map Latch.signal) xs := by
  induction ls generalizing T xs with
  | nil => rfl
  | cons l ls ih =>
    cases xs with
    | nil => rfl
    | cons x xs => exact ih _ xs

theorem all_initial [SignalValue α] (hOfBool : ∀ b, P (SignalValue.ofBool b)) (c : Circuit) :
    (Table.initial c : Table α).All P := by
  rw [initial, reset, setState, setLatches_eq_setAll]
  refine All.setAll (fun v => ?_) _ fun x hx => ?_
  · rw [get_blankUpTo]
    exact hOfBool false
  · obtain ⟨l, _, rfl⟩ := List.mem_map.mp hx
    exact hOfBool l.initial

section Complement

variable [SignalValue α] (hComplement : ∀ x : α, P x → P (SignalValue.complement x))
include hComplement

theorem All.read (h : T.All P) (s : Signal) : P (T.read s) := by
  rw [Table.read]
  split
  · exact hComplement _ (h _)
  · exact h _

theorem All.map_read (h : T.All P) (ss : List Signal) : ∀ x ∈ ss.map T.read, P x := by
  intro x hx
  obtain ⟨s, _, rfl⟩ := List.mem_map.mp hx
  exact h.read hComplement s

theorem All.nextState (h : T.All P) (c : Circuit) : ∀ x ∈ T.nextState c, P x := by
  intro x hx
  obtain ⟨l, _, rfl⟩ := List.mem_map.mp hx
  exact h.read hComplement l.next

theorem All.alarm (h : T.All P) (hFalse : P (SignalValue.ofBool false)) (c : Circuit) :
    P (T.alarm c) := by
  rw [Table.alarm]
  cases c.alarm? with
  | none => exact hFalse
  | some s => exact h.read hComplement s

theorem All.advance (h : T.All P) (c : Circuit) : (T.advance c).All P := by
  rw [Table.advance, setState, setLatches_eq_setAll]
  exact h.setAll _ (h.nextState hComplement c)

end Complement

theorem All.settle [GateValue α] (h : T.All P)
    (hComplement : ∀ x : α, P x → P (SignalValue.complement x))
    (hAnd : ∀ x y : α, P x → P y → P (GateValue.and x y)) (c : Circuit) : (T.settle c).All P := by
  rw [Table.settle]
  induction c.gates generalizing T with
  | nil => exact h
  | cons g gates ih =>
    exact ih (h.set g.var (hAnd _ _ (h.read hComplement g.left) (h.read hComplement g.right)))

end All

variable {α : Type} {ev : α → Bool} {T : Table α} {t : Table Bool}

def Values (ev : α → Bool) (T : Table α) (t : Table Bool) : Prop := ∀ v, ev (T.get v) = t.get v

theorem Values.set (h : T.Values ev t) (v : Nat) (x : α) :
    (T.set v x).Values ev (t.set v (ev x)) := by
  intro w
  rw [get_set, get_set]
  split
  · rfl
  · exact h w

theorem Values.setAll (h : T.Values ev t) (ss : List Signal) (xs : List α) :
    (T.setAll ss xs).Values ev (t.setAll ss (xs.map ev)) := by
  induction ss generalizing T t xs with
  | nil => exact h
  | cons s ss ih =>
    cases xs with
    | nil => exact h
    | cons x xs => exact ih (h.set s.var x) xs

theorem Values.setLatches (h : T.Values ev t) (ls : List Latch) (xs : List α) :
    (T.setLatches ls xs).Values ev (t.setLatches ls (xs.map ev)) := by
  rw [setLatches_eq_setAll, setLatches_eq_setAll]
  exact h.setAll _ xs

section Signals

variable [SignalValue α]

theorem length_observed (c : Circuit) (T : Table α) :
    (T.observed c).length = c.observed.length :=
  List.length_map _

theorem length_state (c : Circuit) (T : Table α) : (T.state c).length = c.latches.length :=
  List.length_map _

theorem length_nextState (c : Circuit) (T : Table α) :
    (T.nextState c).length = c.latches.length :=
  List.length_map _

variable (hev : Evaluation ev) (c : Circuit)
include hev

theorem Values.read (h : T.Values ev t) (s : Signal) : ev (T.read s) = t.read s := by
  rw [Table.read, Table.read]
  split
  · rw [hev.complement, h]
    rfl
  · exact h _

theorem Values.map_read (h : T.Values ev t) (ss : List Signal) :
    (ss.map T.read).map ev = ss.map t.read := by
  rw [List.map_map]
  exact List.map_congr_left fun s _ => h.read hev s

theorem Values.outputs (h : T.Values ev t) : (T.outputs c).map ev = t.outputs c :=
  h.map_read hev c.outputs

theorem Values.observed (h : T.Values ev t) : (T.observed c).map ev = t.observed c :=
  h.map_read hev c.observed

theorem Values.alarm (h : T.Values ev t) : ev (T.alarm c) = t.alarm c := by
  rw [Table.alarm, Table.alarm]
  cases c.alarm? with
  | none => exact hev.ofBool false
  | some s => exact h.read hev s

theorem Values.state (h : T.Values ev t) : (T.state c).map ev = t.state c := by
  rw [Table.state, Table.state, List.map_map]
  exact List.map_congr_left fun l _ => h.read hev l.signal

theorem Values.nextState (h : T.Values ev t) : (T.nextState c).map ev = t.nextState c := by
  rw [Table.nextState, Table.nextState, List.map_map]
  exact List.map_congr_left fun l _ => h.read hev l.next

theorem Values.advance (h : T.Values ev t) : (T.advance c).Values ev (t.advance c) := by
  rw [Table.advance, Table.advance, ← h.nextState hev c]
  exact h.setLatches c.latches _

theorem Values.reset (h : T.Values ev t) : (T.reset c).Values ev (t.reset c) := by
  have hReset := h.setLatches c.latches (c.latches.map fun l => SignalValue.ofBool l.initial)
  rw [List.map_map] at hReset
  have hInitial : (ev ∘ fun l : Latch => SignalValue.ofBool l.initial) =
      fun l : Latch => (SignalValue.ofBool l.initial : Bool) :=
    funext fun l => hev.ofBool l.initial
  rw [hInitial] at hReset
  exact hReset

theorem values_initial : (Table.initial c : Table α).Values ev (Table.initial c) := by
  have hBlank : (blankUpTo c.maxVar (SignalValue.ofBool false) : Table α).Values ev
      (blankUpTo c.maxVar (SignalValue.ofBool false)) := by
    intro v
    rw [get_blankUpTo, get_blankUpTo]
    exact hev.ofBool false
  exact hBlank.reset hev c

end Signals

theorem Values.settle [GateValue α] (hev : GateEvaluation ev) (h : T.Values ev t) (c : Circuit) :
    (T.settle c).Values ev (t.settle c) := by
  rw [Table.settle, Table.settle]
  induction c.gates generalizing T t with
  | nil => exact h
  | cons g gates ih =>
    have hGate := h.set g.var (GateValue.and (T.read g.left) (T.read g.right))
    rw [hev.and, h.read hev.toEvaluation, h.read hev.toEvaluation] at hGate
    exact ih hGate

end Table

end SoftError

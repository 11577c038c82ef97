import SoftError.Proofs.Circuit.Runs

/-!
# Simulation over values

A simulation over values that can be evaluated is many concrete simulations at once, one for each
way to evaluate them. Whatever values are put into the latches, what is read from the tables has
the truth values of the concrete simulation in which the latches get those of these values.
-/

namespace SoftError.Table

/-- The moves of a simulation over values. Only the latches may get any values. -/
inductive ValueMove (α : Type) where
  | reset
  | inputs (xs : List Bool)
  | latch (index : Nat) (x : α)
  | settle
  | advance

variable {α : Type} {ev : α → Bool} (c : Circuit)

namespace ValueMove

/-- The move is impossible if there is no such latch. -/
def legal : ValueMove α → Bool
  | latch index _ => decide (index < c.latches.length)
  | _ => true

def symbolic? [GateValue α] (T : Table α) : ValueMove α → Option (Table α)
  | reset => some (T.reset c)
  | inputs xs => some (T.setInputs c (xs.map SignalValue.ofBool))
  | latch index x => T.setLatch? c index x
  | settle => some (T.settle c)
  | advance => some (T.advance c)

/-- The move of a concrete simulation. A latch is changed by writing the whole state. -/
def concrete? (ev : α → Bool) (t : Table Bool) : ValueMove α → Option (Table Bool)
  | reset => some (t.reset c)
  | inputs xs => some (t.setInputs c xs)
  | latch index x =>
    if index < c.latches.length then some (t.setState c ((t.state c).set index (ev x))) else none
  | settle => some (t.settle c)
  | advance => some (t.advance c)

theorem isSome_symbolic? [GateValue α] (T : Table α) (m : ValueMove α) :
    (m.symbolic? c T).isSome = m.legal c := by
  cases m with
  | reset | inputs | settle | advance => rfl
  | latch index x =>
    rw [symbolic?, setLatch?, legal, Bool.eq_iff_iff]
    simp

theorem isSome_foldlM_symbolic? [GateValue α] (T : Table α) (ms : List (ValueMove α)) :
    (ms.foldlM (symbolic? c) T).isSome = ms.all (legal c) := by
  induction ms generalizing T with
  | nil => rfl
  | cons m ms ih =>
    have hMove := isSome_symbolic? c T m
    rw [List.foldlM_cons, List.all_cons, ← hMove]
    cases m.symbolic? c T with
    | none => rfl
    | some T => exact ih T

end ValueMove

open ValueMove

section Simulation

variable {c} {T : Table α} {t : Table Bool}

theorem Values.setLatch (h : T.Values ev t) {index : Nat} {l : Latch}
    (hl : c.latches[index]? = some l) (x : α) :
    (T.set l.signal.var x).Values ev (t.setState c ((t.state c).set index (ev x))) := by
  intro v
  rw [h.set l.signal.var x, get_setState_set hl t (length_state c t), get_set, get_set,
    get_setState_state]

variable [GateValue α] (hev : GateEvaluation ev)
include hev

/-- Both simulations make the move, or neither does. -/
theorem Values.move (h : T.Values ev t) (m : ValueMove α) :
    Option.Rel (Values ev) (m.symbolic? c T) (m.concrete? c ev t) := by
  cases m with
  | reset => exact .some (h.reset hev.toEvaluation c)
  | inputs xs =>
    have hInputs := h.setAll c.inputs (xs.map SignalValue.ofBool)
    have hOfBool : ev ∘ SignalValue.ofBool = id := funext hev.ofBool
    rw [List.map_map, hOfBool, List.map_id] at hInputs
    exact .some hInputs
  | latch index x =>
    rw [symbolic?, concrete?, setLatch?]
    cases hl : c.latches[index]? with
    | none =>
      rw [if_neg (Nat.not_lt.mpr (List.getElem?_eq_none_iff.mp hl))]
      exact .none
    | some l =>
      rw [if_pos (List.getElem?_eq_some_iff.mp hl).1]
      exact .some (h.setLatch hl x)
  | settle => exact .some (h.settle hev c)
  | advance => exact .some (h.advance hev.toEvaluation c)

theorem Values.moves (h : T.Values ev t) (ms : List (ValueMove α)) :
    Option.Rel (Values ev) (ms.foldlM (symbolic? c) T) (ms.foldlM (concrete? c ev) t) := by
  induction ms generalizing T t with
  | nil => exact .some h
  | cons m ms ih =>
    have hMove := h.move hev (c := c) m
    rw [List.foldlM_cons, List.foldlM_cons]
    generalize m.symbolic? c T = next at hMove ⊢
    generalize m.concrete? c ev t = next' at hMove ⊢
    cases hMove with
    | none => exact .none
    | some hNext => exact ih hNext

end Simulation

/-- What is read from a table of values has the truth values of a concrete table. -/
structure Reads [SignalValue α] (ev : α → Bool) (T : Table α) (t : Table Bool) : Prop where
  outputs : (T.outputs c).map ev = t.outputs c
  alarm : ev (T.alarm c) = t.alarm c
  state : (T.state c).map ev = t.state c
  nextState : (T.nextState c).map ev = t.nextState c

variable [GateValue α]

theorem Values.reads (hev : GateEvaluation ev) {T : Table α} {t : Table Bool}
    (h : T.Values ev t) : Reads c ev T t :=
  have hev := hev.toEvaluation
  ⟨h.outputs hev c, h.alarm hev c, h.state hev c, h.nextState hev c⟩

/-- Simulation over values is concrete simulation under every evaluation. It goes through as long
as the latches exist. -/
theorem values_read_pointwise (moves : List (ValueMove α)) :
    (moves.foldlM (symbolic? c) (initial c)).isSome = moves.all (legal c) ∧
    ∀ ev : α → Bool, GateEvaluation ev →
      Option.Rel (Reads c ev) (moves.foldlM (symbolic? c) (initial c))
        (moves.foldlM (concrete? c ev) (initial c)) := by
  refine ⟨isSome_foldlM_symbolic? c _ moves, fun ev hev => ?_⟩
  have hMoves := (values_initial hev.toEvaluation c).moves hev (c := c) moves
  generalize moves.foldlM (symbolic? c) (initial c) = T at hMoves ⊢
  generalize moves.foldlM (concrete? c ev) (initial c) = t at hMoves ⊢
  cases hMoves with
  | none => exact .none
  | some hValues => exact .some (hValues.reads c hev)

end SoftError.Table

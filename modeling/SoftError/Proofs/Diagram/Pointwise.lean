import SoftError.Proofs.Circuit.Pointwise
import SoftError.Proofs.Diagram.Ordered

/-!
# Simulation over diagrams

Diagrams are values that every assignment of the diagram variables evaluates. So a simulation
over diagrams is one concrete simulation for each assignment. The inputs are applied one by one,
and none of them is free.
-/

namespace SoftError.Table

open ValueMove

theorem setLevels_ofBool (T : Table Diagram) (ss : List Signal) (xs : List Bool) :
    T.setLevels ((ss.map Signal.var).zip (xs.map Level.ofBool)) =
      (.ok (), T.setAll ss (xs.map .leaf)) := by
  induction ss generalizing T xs with
  | nil => rfl
  | cons s ss ih =>
    cases xs with
    | nil => rfl
    | cons x xs => cases x <;> exact ih _ xs

variable (c : Circuit)

/-- The move of a simulation over diagrams. -/
def diagram? (T : Table Diagram) : ValueMove Diagram → Option (Table Diagram)
  | .reset => some (T.reset c)
  | .inputs xs =>
    match T.applyLevels c (xs.map Level.ofBool) with
    | (.ok (), T) => some T
    | (.error _, _) => none
  | .latch index d => T.setLatch? c index d
  | .settle => some (T.settle c)
  | .advance => some (T.advance c)

theorem diagram?_eq : diagram? c = symbolic? c := by
  funext T m
  cases m with
  | reset | latch | settle | advance => rfl
  | inputs xs =>
    rw [diagram?, applyLevels, setLevels_ofBool]
    rfl

/-- Simulation over diagrams is concrete simulation under every assignment. It goes through as
long as the latches exist. -/
theorem diagrams_read_pointwise (moves : List (ValueMove Diagram)) :
    (moves.foldlM (diagram? c) (initial c)).isSome = moves.all (legal c) ∧
    ∀ ρ, Option.Rel (Reads c (Diagram.eval ρ)) (moves.foldlM (diagram? c) (initial c))
      (moves.foldlM (concrete? c (Diagram.eval ρ)) (initial c)) := by
  rw [diagram?_eq]
  obtain ⟨hSome, hReads⟩ := values_read_pointwise c moves
  exact ⟨hSome, fun ρ => hReads _ (evaluation_eval ρ)⟩

end SoftError.Table

import SoftError.Formula.Model
import SoftError.Stimulus.Error
import SoftError.Storage

/-!
# Stimuli

A stimulus drives the inputs of a circuit for a number of steps. Each input is low, high
or free at each step; a free input stands for either value.
-/

namespace SoftError

/-- The value of one input at one step. -/
inductive Level where
  | low
  | high
  | free
deriving DecidableEq

namespace Level

def ofBool (b : Bool) : Level := if b then high else low

def toBool? : Level → Option Bool
  | low => some false
  | high => some true
  | free => none

/-- The definite value, where a free input reads as low. -/
def toBool (v : Level) : Bool := v.toBool?.getD false

def toChar : Level → Char
  | low => '0'
  | high => '1'
  | free => '?'

def ofChar? : Char → Option Level
  | '0' => some low
  | '1' => some high
  | '?' => some free
  | _ => none

theorem ofChar?_toChar (v : Level) : ofChar? v.toChar = some v := by
  cases v <;> rfl

end Level

/-- Input vectors of one width. -/
structure Stimulus where
  width : Nat
  steps : List (List Level)
  width_eq : ∀ step ∈ steps, step.length = width
deriving DecidableEq

namespace Stimulus

/-- The first step that does not have the given width, counted from `t`, and its width. -/
def misfit? (width : Nat) (t : Nat) : List (List Level) → Option (Nat × Nat)
  | [] => none
  | step :: steps =>
    if step.length = width then misfit? width (t + 1) steps else some (t, step.length)

theorem length_eq_of_misfit? {width t : Nat} {steps : List (List Level)}
    (h : misfit? width t steps = none) : ∀ step ∈ steps, step.length = width := by
  induction steps generalizing t with
  | nil => simp
  | cons step steps ih =>
    rw [misfit?] at h
    split at h
    · rename_i hStep
      intro s hs
      rcases List.mem_cons.mp hs with rfl | hs
      · exact hStep
      · exact ih h s hs
    · cases h

def ofSteps (width : Nat) (steps : List (List Level)) : Except StimulusError Stimulus :=
  match h : misfit? width 0 steps with
  | none => .ok ⟨width, steps, length_eq_of_misfit? h⟩
  | some (t, found) => .error (.widthMismatch t width found)

def ofBools (width : Nat) (steps : List (List Bool)) : Except StimulusError Stimulus :=
  ofSteps width (steps.map fun step => step.map Level.ofBool)

/-- All inputs free at every step. -/
def unconstrained (length width : Nat) : Stimulus :=
  ⟨width, List.replicate length (List.replicate width .free), by simp⟩

/-- All inputs free at every step, unless there are too many. -/
def unconstrained? (length width : Nat) : Option Stimulus :=
  if Storage.fits length 24 && Storage.fits width 1 then some (unconstrained length width)
  else none

/-- The given steps so many times, unless there are too many. -/
def repeated? {α : Type} (times : Nat) (steps : List α) : Option (List α) :=
  if steps.isEmpty then some []
  else if Storage.fits (times * steps.length) 24 then some (List.replicate times steps).flatten
  else none

def length (s : Stimulus) : Nat := s.steps.length

def hasFree (s : Stimulus) : Bool := s.steps.any fun step => step.any (· = .free)

/-- The first `n` steps. -/
def take (s : Stimulus) (n : Nat) : Stimulus :=
  ⟨s.width, s.steps.take n, fun step h => s.width_eq step (List.mem_of_mem_take h)⟩

/-- The definite values of all steps, where a free input reads as low. -/
def bools (s : Stimulus) : List (List Bool) := s.steps.map fun step => step.map Level.toBool

/-- Gives a free input the value of its literal, or low if that is unknown. -/
def settleStep (m : Model) (lits : List Lit) (step : List Level) : List Level :=
  step.mapIdx fun i v =>
    if v = .free then Level.ofBool ((lits[i]?.bind m.value).getD false) else v

/-- Replaces the free inputs by their values in a model, where `lits` has the literals that
stood for the inputs at each step. -/
def settle (s : Stimulus) (lits : List (List Lit)) (m : Model) : Stimulus where
  width := s.width
  steps := s.steps.mapIdx fun t step => settleStep m (lits[t]?.getD []) step
  width_eq := by
    intro step h
    obtain ⟨t, ht, rfl⟩ := List.mem_mapIdx.mp h
    simp [settleStep, s.width_eq]

def stepText (step : List Level) : List Char := step.map Level.toChar

/-- One line for each step. -/
def text (s : Stimulus) : List Char := s.steps.flatMap fun step => stepText step ++ ['\n']

end Stimulus

end SoftError

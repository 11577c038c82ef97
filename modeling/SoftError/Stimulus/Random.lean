import SoftError.Stimulus.Basic

/-!
# Random stimuli

A congruential generator supplies the choices. In each stimulus the same inputs are free
at every step, and the other inputs are fair coin flips.
-/

namespace SoftError

structure Generator where
  state : UInt64
deriving DecidableEq

namespace Generator

def next (g : Generator) : UInt64 × Generator :=
  let state := g.state * 6364136223846793005 + 1442695040888963407
  (state, ⟨state⟩)

/-- The upper half of the next word. -/
def nextHalf (g : Generator) : Nat × Generator :=
  let (word, g) := g.next
  (word.toNat >>> 32, g)

def coin (g : Generator) : Bool × Generator :=
  let (word, g) := g.next
  (word < 0x8000000000000000, g)

/-- The largest low half that is not rejected when `range` values are drawn fairly. -/
def zone (range : Nat) : Nat := (range <<< (32 - (Nat.log2 range + 1))) - 1

/-- A fair choice below `range`, by rejection. The generator runs through all its states, so
that the number of attempts never matters. -/
def below (range : Nat) : (attempts : Nat) → Generator → Nat × Generator
  | 0, g => (0, g)
  | attempts + 1, g =>
    let (half, g) := g.nextHalf
    let product := half * range
    if product % (1 <<< 32) ≤ zone range then (product >>> 32, g) else below range attempts g

/-- Chooses one index for each `j` from `j` on: a random one up to `j`, or `j` itself if that
one is taken. -/
def sampleFrom (chosen : List Nat) (j : Nat) : Nat → Generator → List Nat × Generator
  | 0, g => (chosen, g)
  | n + 1, g =>
    let (t, g) := below (j + 1) (1 <<< 64) g
    sampleFrom (chosen ++ [if t ∈ chosen then j else t]) (j + 1) n g

/-- `amount` different indices below `length`. -/
def sample (length amount : Nat) (g : Generator) : List Nat × Generator :=
  sampleFrom [] (length - amount) amount g

end Generator

namespace Stimulus

def randomStep : List Bool → Generator → List Level × Generator
  | [], g => ([], g)
  | true :: flags, g =>
    let (vs, g) := randomStep flags g
    (.free :: vs, g)
  | false :: flags, g =>
    let (b, g) := g.coin
    let (vs, g) := randomStep flags g
    (Level.ofBool b :: vs, g)

theorem length_randomStep (flags : List Bool) (g : Generator) :
    (randomStep flags g).1.length = flags.length := by
  induction flags generalizing g with
  | nil => rfl
  | cons flag flags ih => cases flag <;> simp [randomStep, ih]

def randomSteps (flags : List Bool) : Nat → Generator → List (List Level) × Generator
  | 0, g => ([], g)
  | n + 1, g =>
    let (step, g) := randomStep flags g
    let (steps, g) := randomSteps flags n g
    (step :: steps, g)

theorem length_of_mem_randomSteps {flags : List Bool} {n : Nat} {g : Generator} :
    ∀ step ∈ (randomSteps flags n g).1, step.length = flags.length := by
  induction n generalizing g with
  | zero => simp [randomSteps]
  | succ n ih =>
    intro step h
    rcases List.mem_cons.mp h with rfl | h
    · exact length_randomStep flags g
    · exact ih step h

def random (length width free : Nat) (g : Generator) : Stimulus × Generator :=
  let (chosen, g) := g.sample width (min free width)
  let flags := (List.range width).map fun i => decide (i ∈ chosen)
  ({ width, steps := (randomSteps flags length g).1
     width_eq := fun step h => by simpa [flags] using length_of_mem_randomSteps step h },
   (randomSteps flags length g).2)

def randomList (length width free : Nat) : Nat → Generator → List Stimulus × Generator
  | 0, g => ([], g)
  | n + 1, g =>
    let (s, g) := random length width free g
    let (rest, g) := randomList length width free n g
    (s :: rest, g)

/-- Random stimuli, unless there are too many. -/
def randomList? (length width free n : Nat) (g : Generator) :
    Option (List Stimulus × Generator) :=
  if Storage.fits n 32 && (n = 0 || (Storage.fits length 24 && Storage.fits width 1)) then
    some (randomList length width free n g)
  else none

end Stimulus

end SoftError

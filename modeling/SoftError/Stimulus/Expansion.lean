import SoftError.Stimulus.Basic

/-!
# Expanding free inputs

A stimulus with free inputs stands for all ways to fill them in. They are listed by
counting in binary, where the first free input is the lowest digit.
-/

namespace SoftError.Stimulus

/-- Fills the free inputs of a step from a list of values, and returns the values left. -/
def fillStep : List Bool → List Level → List Bool × List Bool
  | values, [] => ([], values)
  | values, v :: vs =>
    match v.toBool?, values with
    | some b, values =>
      let (bs, values) := fillStep values vs
      (b :: bs, values)
    | none, [] =>
      let (bs, values) := fillStep [] vs
      (false :: bs, values)
    | none, b :: values =>
      let (bs, values) := fillStep values vs
      (b :: bs, values)

def fillSteps : List Bool → List (List Level) → List (List Bool)
  | _, [] => []
  | values, step :: steps =>
    let (bs, values) := fillStep values step
    bs :: fillSteps values steps

def freeCount (s : Stimulus) : Nat := s.steps.flatten.count .free

/-- The binary digits of `n`, the lowest one first. -/
def digits (count n : Nat) : List Bool := (List.range count).map n.testBit

/-- The input vectors with the free inputs filled in by the digits of `n`. -/
def filling (s : Stimulus) (n : Nat) : List (List Bool) := fillSteps (digits s.freeCount n) s.steps

end SoftError.Stimulus

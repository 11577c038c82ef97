import SoftError.Circuit.WellFormed
import SoftError.Error
import SoftError.Options
import SoftError.Stimulus.Basic

/-!
# Latches under analysis

The latches of the protection logic are the last ones of a circuit. They are reserved: an
analysis flips the other latches only.
-/

namespace SoftError

/-- A latch that an analysis may flip. -/
structure Component where
  index : Nat
  signal : Signal
deriving DecidableEq

/-- The latches before the reserved ones. -/
def checkedLatches (c : Circuit) (reserved : Nat) : Except AnalysisError (List Component) :=
  if c.latches.length < reserved then .error (.tooManyReserved reserved c.latches.length)
  else .ok ((c.latches.take (c.latches.length - reserved)).mapIdx fun i l => ⟨i, l.signal⟩)

def requireAlarm (c : Circuit) : Except AnalysisError Unit :=
  if c.alarm?.isNone then .error (.circuit .missingAlarm) else .ok ()

/-- Every stimulus, counted from `index`, has the width of the circuit, and is definite
unless free inputs are allowed. -/
def checkStimuliFrom (c : Circuit) (allowFree : Bool) : (index : Nat) → List Stimulus →
    Except AnalysisError Unit
  | _, [] => .ok ()
  | index, s :: rest =>
    if s.width ≠ c.inputs.length then
      .error (.stimulus (.widthMismatch 0 c.inputs.length s.width))
    else if !allowFree && s.hasFree then .error (.unexpectedFreeInputs index)
    else checkStimuliFrom c allowFree (index + 1) rest

def checkStimuli (c : Circuit) (allowFree : Bool) (stimuli : List Stimulus) :
    Except AnalysisError Unit :=
  checkStimuliFrom c allowFree 0 stimuli

end SoftError

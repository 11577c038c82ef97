import SoftError.Fault.Component
import SoftError.Witness.Rows

/-!
# Traces of superfluous alarms

A superfluous trace shows a flipped latch that raises the alarm although the outputs stay
correct and the state becomes the golden one again.
-/

namespace SoftError

structure SuperfluousTrace where
  component : Component
  /-- The step before which the latch is inverted. -/
  flip : Nat
  /-- The first step with a raised alarm. -/
  alarm : Nat
  /-- The first step that starts in the golden state again. -/
  gone : Nat
  stimulus : Stimulus
deriving DecidableEq

namespace SuperfluousTrace

def fault (t : SuperfluousTrace) : Fault := ⟨t.component.index, t.flip⟩

def text (t : SuperfluousTrace) : String :=
  s!"component={t.component.signal.code} flip_timestep={t.flip}, alarm_timestep={t.alarm}," ++
    s!"error_gone_ts={t.gone}"

/-- The inputs up to the step where the error is gone. -/
def inputs (t : SuperfluousTrace) : List (List Bool) := t.stimulus.bools.take t.gone

/-- The replay as text; `none` if it would flip a latch that does not exist. -/
def render (c : Circuit) (t : SuperfluousTrace) : Option String :=
  if t.flip < t.inputs.length ∧ c.latches.length ≤ t.component.index then none
  else some <| Witness.table c t.fault t.text
    (fun i => if i + 1 = t.gone then " <<< error gone in next state!" else "") t.inputs

/-- The golden alarm stays low, the outputs agree where they are compared, the first faulty
alarm is where the trace says, and in the end the states agree. -/
def isValid (c : Circuit) (reserved : Nat) (compareOutputs : Bool) (t : SuperfluousTrace) : Bool :=
  let steps := t.fault.replay c t.inputs
  steps.all (fun o => !o.golden.alarm c)
    && (!compareOutputs || steps.all (·.agrees c))
    && steps.findIdx? (fun o => o.faulty.alarm c) = some t.alarm
    && steps.getLast?.all (·.converges c reserved)

end SuperfluousTrace

end SoftError

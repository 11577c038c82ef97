import SoftError.Stimulus.Basic
import SoftError.Witness.Rows

/-!
# Traces of silent errors

An error trace shows a flipped latch that changes an output while the alarm stays low.
-/

namespace SoftError

structure ErrorTrace where
  latch : Signal
  /-- The step before which the latch is inverted. -/
  flip : Nat
  /-- The step with a wrong output. -/
  error : Nat
  inputs : List (List Bool)
deriving DecidableEq

namespace ErrorTrace

/-- The fault of a trace. A signal that is no latch names none. -/
def fault (c : Circuit) (t : ErrorTrace) : Fault :=
  ⟨(c.latchIndex? t.latch).getD c.latches.length, t.flip⟩

def text (t : ErrorTrace) : String :=
  s!"Latch: {t.latch.code} flipped at i={t.flip}, error at i={t.error}"

def render (c : Circuit) (t : ErrorTrace) : String :=
  Witness.table c (t.fault c) t.text
    (fun i => if i = t.error then " <<< wrong output in this state!" else "")
    (t.inputs.take (t.error + 1))

/-- The faulty alarm stays low up to the error, where an output differs. -/
def isSilentError (c : Circuit) (error : Nat) (steps : List Observation) : Bool :=
  (steps.take (error + 1)).all (fun o => !o.faulty.alarm c)
    && (steps[error]?.any fun o => !o.agrees c)

/-- Whether the trace would show a silent error if the flip came before step `s`. -/
def replaysAt (c : Circuit) (t : ErrorTrace) (s : Nat) : Bool :=
  isSilentError c t.error ({ t.fault c with time := s }.replay c t.inputs)

/-- The flips that explain the error of the trace. -/
def flips (c : Circuit) (t : ErrorTrace) : List Nat :=
  (List.range (t.error + 1)).filter (t.replaysAt c)

/-- Whether definite inputs fit the levels of a stimulus. -/
def fitsLevels (xs : List Bool) (vs : List Level) : Bool :=
  xs.length = vs.length && (xs.zip vs).all fun (x, v) => v.toBool?.all (· == x)

def fitsPrefix : List (List Bool) → List (List Level) → Bool
  | [], _ => true
  | _ :: _, [] => false
  | xs :: inputs, vs :: steps => fitsLevels xs vs && fitsPrefix inputs steps

/-- The trace covers the steps up to the error, follows one of the stimuli, and shows a
silent error. -/
def isValid (c : Circuit) (stimuli : List Stimulus) (t : ErrorTrace) : Bool :=
  t.inputs.length = t.error + 1 && stimuli.any (fun s => fitsPrefix t.inputs s.steps)
    && t.replaysAt c t.flip

end ErrorTrace

end SoftError

import SoftError.Stimulus.Basic
import SoftError.Text.Blank
import SoftError.Text.Line

/-!
# The written form of a stimulus

Each line that is not blank is a step, with one character for each input.
-/

namespace SoftError.Stimulus

def parseStep (t : Nat) : List Char → Except StimulusError (List Level)
  | [] => .ok []
  | c :: cs =>
    match Level.ofChar? c with
    | none => .error (.invalidCharacter t c)
    | some v => return v :: (← parseStep t cs)

def parseLine (steps : List (List Level)) (line : List UInt8) :
    Except StimulusError (List (List Level)) :=
  match Text.decode line with
  | none => .error .notText
  | some text =>
    match Text.trim text with
    | [] => .ok steps
    | text => return steps ++ [← parseStep steps.length text]

def parse (bytes : List UInt8) (width : Nat) : Except StimulusError Stimulus := do
  ofSteps width (← (Text.allLines bytes).foldlM parseLine [])

/-- Reads the stimulus in a file, given its path and the content it was set to, if any. -/
def ofFile (path : String) (width : Nat) (content : Option (List UInt8)) :
    Except StimulusError Stimulus := do
  let file ← (Path.load path content).mapError (.unopened path)
  let bytes ← file.bytes.mapError fun e => .corruptFile path (.unreadable e)
  (parse bytes width).mapError (.corruptFile path)

end SoftError.Stimulus

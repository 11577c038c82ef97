import SoftError.Path
import SoftError.Text.Quoted

/-!
# What can be wrong with a stimulus
-/

namespace SoftError

inductive StimulusError where
  | widthMismatch (step expected found : Nat)
  | invalidCharacter (step : Nat) (found : Char)
  | notText
  /-- A file that cannot be opened. -/
  | unopened (path : String) (cause : FileError)
  /-- A file that cannot be read. -/
  | unreadable (cause : FileError)
  | corruptFile (path : String) (cause : StimulusError)
deriving DecidableEq

def StimulusError.message : StimulusError → String
  | widthMismatch step expected found =>
    s!"step {step} has {found} input values, expected {expected}"
  | invalidCharacter step found => s!"invalid input value {Text.quote found} at step {step}"
  | notText => "io error on : stream did not contain valid UTF-8"
  | unopened path cause => s!"io error on {path}: {cause.message}"
  | unreadable cause => "io error on : " ++ cause.message
  | corruptFile path cause => s!"corrupt test case file {path}: {cause.message}"

end SoftError

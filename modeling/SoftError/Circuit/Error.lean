import SoftError.Circuit.Signal
import SoftError.Path

/-!
# What can be wrong with a circuit

`CircuitError` lists the defects of a netlist, `FormatError` those of its written form.
-/

namespace SoftError

inductive CircuitError where
  | duplicateDefinition (signal : Signal)
  | negatedDefinition (signal : Signal)
  | constantRedefined
  | variableOutOfRange (signal : Signal) (bound : Nat)
  | undefinedSignal (signal : Signal)
  | combinationalCycle (signal : Signal)
  | missingAlarm
deriving DecidableEq

def CircuitError.message : CircuitError → String
  | duplicateDefinition s => s!"variable of literal {s.code} is defined more than once"
  | negatedDefinition s => s!"literal {s.code} is defined but negated"
  | constantRedefined => "the constant literal cannot be redefined"
  | variableOutOfRange s bound => s!"literal {s.code} exceeds the maximum variable index {bound}"
  | undefinedSignal s => s!"literal {s.code} is used but not defined"
  | combinationalCycle s => s!"combinational cycle through and gate {s.code}"
  | missingAlarm => "the circuit has no outputs, the alarm output is mandatory"

/-- The kinds of line in a written circuit. -/
inductive Entry where
  | input
  | latch
  | output
  | gate
deriving DecidableEq

def Entry.name : Entry → String
  | input => "input"
  | latch => "latch"
  | output => "output"
  | gate => "and"

inductive TokenError where
  | endOfInput
  | headerTooShort
  | unknownFormat
  | notANumber (token : String)
  | oddSignal (code : Nat)
  | badReset (token : String)
  | missing (entry : Entry)
  | tooFew (entry : Entry)
  | trailing (entry : Entry) (token : String)
  | badDelta (delta gate : Nat)
deriving DecidableEq

def TokenError.message : TokenError → String
  | endOfInput => "unexpected end of file"
  | headerTooShort => "missing header tokens"
  | unknownFormat => "expected aag (or at least aig)"
  | notANumber token => s!"{token} expected u64"
  | oddSignal code => s!"expected literal to be even, got {code}"
  | badReset token => s!"expected 0 1 or latch literal for latch initialization, got {token}"
  | missing entry => s!"expected {entry.name} token, got nothing"
  | tooFew entry => s!"not enough {entry.name} tokens"
  | trailing .gate token => s!"expected nothing after and tokens, got {token}"
  | trailing entry token => s!"expected nothing after {entry.name}, got {token}"
  | badDelta delta gate => s!"invalid delta {delta} for and {gate}"

inductive FormatError where
  | longHeader
  | token (cause : TokenError)
  | notText
  /-- A file that cannot be opened. -/
  | unopened (path : String) (cause : FileError)
  /-- A file that cannot be read. -/
  | unreadable (cause : FileError)
  | unknownExtension
  /-- The header announces more entries than an address space can hold. -/
  | tooLarge
deriving DecidableEq

def FormatError.message : FormatError → String
  | longHeader => "unsupported feature: header only supports M I L O A"
  | token cause => "invalid token: " ++ cause.message
  | notText => "io error: stream did not contain valid UTF-8"
  | unopened path cause => s!"io error: {path}: {cause.message}"
  | unreadable cause => "io error: " ++ cause.message
  | unknownExtension => "io error: invalid extension, expected .aag or .aig"
  | tooLarge => "capacity overflow"

inductive ReadError where
  | format (cause : FormatError)
  | circuit (cause : CircuitError)
deriving DecidableEq

def ReadError.message : ReadError → String
  | format cause => cause.message
  | circuit cause => cause.message

end SoftError

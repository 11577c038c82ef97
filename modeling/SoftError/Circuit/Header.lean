import SoftError.Circuit.WellFormed
import SoftError.Text.Blank
import SoftError.Text.Line
import SoftError.Text.Numeral

/-!
# Reading written circuits

The two written forms share their header, their line structure and the lines of the
outputs. A reader consumes bytes and fails at the first defect.
-/

namespace SoftError

abbrev Reader := StateT (List UInt8) (Except FormatError)

namespace Reader

def fail {α : Type} (cause : TokenError) : Reader α := throw (.token cause)

/-- The words of the next line. -/
def words : Reader (List (List Char)) := do
  match Text.nextLine (← get) with
  | none => fail .endOfInput
  | some (line, rest) =>
    match Text.decode line with
    | none => throw .notText
    | some text =>
      set rest
      return Text.words text

def number (word : List Char) : Reader Nat :=
  match Text.readWord 64 word with
  | some n => pure n
  | none => fail (.notANumber (String.ofList word))

def signal (word : List Char) : Reader Signal := return ⟨← number word⟩

/-- The only word of a line. -/
def soleSignal (entry : Entry) : Reader Signal := do
  match ← words with
  | [] => fail (.missing entry)
  | [word] => signal word
  | _ :: word :: _ => fail (.trailing entry (String.ofList word))

/-- The reset value of the latch `s`: `0`, `1`, or the latch itself if it has none. -/
def reset (s : Signal) : Option (List Char) → Reader (Option Bool)
  | none => pure (some false)
  | some word => do
    let n ← number word
    if n = 0 then return some false
    else if n = 1 then return some true
    else if n = s.code then return none
    else fail (.badReset (String.ofList word))

def times {α : Type} (entry : Reader α) : Nat → Reader (List α)
  | 0 => pure []
  | n + 1 => do
    let head ← entry
    let tail ← times entry n
    return head :: tail

end Reader

/-- The announced variable range and numbers of entries. -/
structure Header where
  maxVar : Nat
  inputs : Nat
  latches : Nat
  outputs : Nat
  gates : Nat
deriving DecidableEq

def Reader.header : Reader Header := do
  match ← Reader.words with
  | format :: m :: i :: l :: o :: a :: more =>
    if format ≠ "aag".toList ∧ format ≠ "aig".toList then Reader.fail .unknownFormat
    let m ← Reader.number m
    let i ← Reader.number i
    let l ← Reader.number l
    let o ← Reader.number o
    let a ← Reader.number a
    unless more.isEmpty do throw .longHeader
    return ⟨m, i, l, o, a⟩
  | _ => Reader.fail .headerTooShort

/-- Runs a reader of netlists on the whole input and checks the result. -/
def Reader.circuit (reader : Reader Netlist) (bytes : List UInt8) : Except ReadError Circuit :=
  match reader.run bytes with
  | .error cause => .error (.format cause)
  | .ok (n, _) => (Circuit.ofNetlist n).mapError .circuit

end SoftError

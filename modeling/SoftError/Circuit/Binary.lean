import SoftError.Circuit.Header
import SoftError.Storage

/-!
# The binary form of a circuit

Inputs, latches and gates are numbered consecutively, so only the next states of the
latches and the outputs have lines of their own. A gate is written as two differences,
from the gate to its larger fanin and from there to the other one, each in groups of
seven bits with the lowest group first.
-/

namespace SoftError.Binary

/-- Reads a difference into a 64-bit word. The high bit of a byte says that another group
follows. -/
def delta (word shift : UInt64) : List UInt8 → Option (UInt64 × List UInt8)
  | [] => none
  | byte :: bytes =>
    let word := word ||| ((byte &&& 0x7f).toUInt64 <<< shift)
    if byte &&& 0x80 = 0 then some (word, bytes) else delta word (shift + 7) bytes

def difference : Reader Nat := do
  match delta 0 0 (← get) with
  | none => Reader.fail .endOfInput
  | some (word, rest) =>
    set rest
    return word.toNat

def latch (s : Signal) : Reader Latch := do
  match ← Reader.words with
  | [] => Reader.fail (.tooFew .latch)
  | _ :: _ :: word :: _ => Reader.fail (.trailing .latch (String.ofList word))
  | next :: reset =>
    let next ← Reader.signal next
    return ⟨s, next, ← Reader.reset s reset.head?⟩

def gate (out : Nat) : Reader Gate := do
  let first ← difference
  let second ← difference
  if out < first then Reader.fail (.badDelta first out)
  let left := out - first
  if left < second then Reader.fail (.badDelta second out)
  return ⟨⟨out⟩, ⟨left⟩, ⟨left - second⟩⟩

/-- `n` entries, one for each of the variables from `v` on. -/
def numbered {α : Type} (entry : Nat → Reader α) (v : Nat) : Nat → Reader (List α)
  | 0 => pure []
  | n + 1 => do
    let head ← entry v
    let tail ← numbered entry (v + 1) n
    return head :: tail

def netlist : Reader Netlist := do
  let h ← Reader.header
  unless Storage.fits h.inputs 8 do throw .tooLarge
  let latches ← numbered (fun v => latch (Signal.ofVar v)) (h.inputs + 1) h.latches
  let outputs ← Reader.times (Reader.soleSignal .output) h.outputs
  unless Storage.fits h.gates 24 do throw .tooLarge
  let gates ← numbered (fun v => gate (2 * v)) (h.inputs + h.latches + 1) h.gates
  return ⟨h.maxVar, (List.range' 1 h.inputs).map Signal.ofVar, latches, outputs, gates⟩

/-- Reads a circuit from its binary form. -/
def read (bytes : List UInt8) : Except ReadError Circuit := netlist.circuit bytes

end SoftError.Binary

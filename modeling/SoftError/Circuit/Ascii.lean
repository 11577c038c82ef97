import SoftError.Circuit.Header

/-!
# The textual form of a circuit

After the header come one line for each input, latch, output and gate. What follows the
gates is ignored.
-/

namespace SoftError.Ascii

def input : Reader Signal := do
  let s ← Reader.soleSignal .input
  if s.negated then Reader.fail (.oddSignal s.code)
  return s

def latch : Reader Latch := do
  match ← Reader.words with
  | _ :: _ :: _ :: word :: _ => Reader.fail (.trailing .latch (String.ofList word))
  | s :: next :: reset =>
    let s ← Reader.signal s
    let next ← Reader.signal next
    if s.negated then Reader.fail (.oddSignal s.code)
    return ⟨s, next, ← Reader.reset s reset.head?⟩
  | _ => Reader.fail (.tooFew .latch)

def gate : Reader Gate := do
  match ← Reader.words with
  | _ :: _ :: _ :: word :: _ => Reader.fail (.trailing .gate (String.ofList word))
  | [out, left, right] =>
    let out ← Reader.signal out
    let left ← Reader.signal left
    let right ← Reader.signal right
    if out.negated then Reader.fail (.oddSignal out.code)
    return ⟨out, left, right⟩
  | _ => Reader.fail (.tooFew .gate)

def netlist : Reader Netlist := do
  let h ← Reader.header
  let inputs ← Reader.times input h.inputs
  let latches ← Reader.times latch h.latches
  let outputs ← Reader.times (Reader.soleSignal .output) h.outputs
  let gates ← Reader.times gate h.gates
  return ⟨h.maxVar, inputs, latches, outputs, gates⟩

/-- Reads a circuit from its textual form. -/
def read (bytes : List UInt8) : Except ReadError Circuit := netlist.circuit bytes

end SoftError.Ascii

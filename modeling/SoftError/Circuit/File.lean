import SoftError.Circuit.Ascii
import SoftError.Circuit.Binary
import SoftError.Path

/-!
# Circuits in files

The extension of a file tells the form of the circuit in it.
-/

namespace SoftError

/-- Reads the circuit in a file, given its path and the content it was set to, if any. -/
def Circuit.ofFile (path : String) (content : Option (List UInt8)) : Except ReadError Circuit := do
  let file ← (Path.load path content).mapError fun e => .format (.unopened path e)
  let bytes := file.bytes.mapError fun e => .format (.unreadable e)
  match Path.extension? path with
  | some ['a', 'a', 'g'] => Ascii.read (← bytes)
  | some ['a', 'i', 'g'] => Binary.read (← bytes)
  | _ => .error (.format .unknownExtension)

end SoftError

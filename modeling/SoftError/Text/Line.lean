/-!
# Lines of bytes

Readers take their input line by line. A line ends at a line feed or at the end of
the input, and its bytes must be UTF-8; the bytes of a line that is never reached do
not matter.
-/

namespace SoftError.Text

def newline : UInt8 := 10

/-- The first line without its line feed, and what follows; `none` at the end of the input. -/
def nextLine : List UInt8 → Option (List UInt8 × List UInt8)
  | [] => none
  | bytes => some (bytes.takeWhile (· != newline), (bytes.dropWhile (· != newline)).drop 1)

def allLines : List UInt8 → List (List UInt8)
  | [] => []
  | b :: bytes =>
    if b == newline then [] :: allLines bytes
    else match allLines bytes with
      | [] => [[b]]
      | line :: rest => (b :: line) :: rest

def decode (bytes : List UInt8) : Option (List Char) :=
  (String.fromUTF8? bytes.toByteArray).map String.toList

def encode (cs : List Char) : List UInt8 := cs.flatMap String.utf8EncodeChar

theorem decode_encode (cs : List Char) : decode (encode cs) = some cs := by
  have hValid : (encode cs).toByteArray.IsValidUTF8 := (String.ofList cs).isValidUTF8
  have hText : String.fromUTF8 (encode cs).toByteArray hValid = String.ofList cs := rfl
  simp [decode, String.fromUTF8?, hValid, hText]

end SoftError.Text

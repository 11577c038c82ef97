/-!
# Decimal numerals

A numeral is a non-empty run of ASCII digits after an optional plus sign; signed
numerals also take a minus sign. Leading zeros are allowed. A numeral of a word
type is refused if its value does not fit.
-/

namespace SoftError.Text

def readDigits (cs : List Char) : Option Nat :=
  if cs.isEmpty || !cs.all Char.isDigit then none else some (Nat.ofDigitChars 10 cs 0)

def readNat : List Char → Option Nat
  | '+' :: cs => readDigits cs
  | cs => readDigits cs

/-- The value of an unsigned numeral of the given number of bits. -/
def readWord (bits : Nat) (cs : List Char) : Option Nat :=
  (readNat cs).filter (· < 1 <<< bits)

def readInt : List Char → Option Int
  | '-' :: cs => (readDigits cs).map fun n => -(n : Int)
  | cs => (readNat cs).map Int.ofNat

/-- The value of a signed numeral of the given number of bits. -/
def readSignedWord (bits : Nat) (cs : List Char) : Option Int :=
  let bound : Nat := 1 <<< (bits - 1)
  (readInt cs).filter fun i => -(bound : Int) ≤ i && i < bound

def writeNat (n : Nat) : List Char := Nat.toDigits 10 n

def writeInt : Int → List Char
  | .ofNat n => writeNat n
  | .negSucc n => '-' :: writeNat (n + 1)

/-- The word that `i` leaves in `bits` bits, read as a signed number. -/
def truncate (bits : Nat) (i : Int) : Int := Int.bmod i (1 <<< bits)

end SoftError.Text

import SoftError.Formula.Basic
import SoftError.Formula.Error
import SoftError.Text.Blank
import SoftError.Text.Line
import SoftError.Text.Numeral

/-!
# The DIMACS form of a formula

One header announces the largest variable and the number of clauses. Clauses are
sequences of integers that end with `0` and may share or span lines. A line that starts
with `c` is a comment.
-/

namespace SoftError.Dimacs

def writeClause (c : Clause) : List Char :=
  c.flatMap (fun l => Text.writeInt l.val ++ [' ']) ++ ['0']

/-- The clauses without a header, one on each line. -/
def writeClauses (f : Cnf) : List Char := f.flatMap fun c => writeClause c ++ ['\n']

def write (f : Cnf) : List Char :=
  "p cnf ".toList ++ Text.writeNat f.maxVar ++ [' '] ++ Text.writeNat f.length ++ ['\n'] ++
    writeClauses f

structure Header where
  maxVar : Nat
  clauses : Nat
deriving DecidableEq

def readHeader (line : List Char) : Except FormulaError Header :=
  match Text.words line with
  | [p, cnf, maxVar, clauses] =>
    match Text.readWord 32 maxVar, Text.readWord 64 clauses with
    | some m, some n =>
      if p = ['p'] ∧ cnf = "cnf".toList then .ok ⟨m, n⟩
      else .error (.malformedHeader (String.ofList line))
    | _, _ => .error (.malformedHeader (String.ofList line))
  | _ => .error (.malformedHeader (String.ofList line))

/-- What has been read so far: the finished clauses and the clause at hand. -/
structure Progress where
  header : Option Header
  finished : Cnf
  current : Clause

/-- Reads an integer. A literal within the announced range is kept as a 32-bit word. -/
def readToken (h : Header) (p : Progress) (token : List Char) : Except FormulaError Progress :=
  match Text.readSignedWord 64 token with
  | none => .error (.invalidToken (String.ofList token))
  | some value =>
    if value = 0 then .ok { p with finished := p.finished ++ [p.current], current := [] }
    else if h.maxVar < value.natAbs then .error (.literalOutOfRange value h.maxVar)
    else match Lit.ofInt? (Text.truncate 32 value) with
      | none => .error (.invalidToken (String.ofList token))
      | some l => .ok { p with current := p.current ++ [l] }

def readText (p : Progress) (line : List Char) : Except FormulaError Progress :=
  match line, p.header with
  | [], _ => .ok p
  | 'c' :: _, _ => .ok p
  | 'p' :: _, some _ => .error (.secondHeader (String.ofList line))
  | 'p' :: _, none => return { p with header := some (← readHeader line) }
  | _, none => .error .missingHeader
  | _, some h => (Text.words line).foldlM (readToken h) p

def readLine (p : Progress) (line : List UInt8) : Except FormulaError Progress :=
  match Text.decode line with
  | none => .error .notText
  | some text => readText p (Text.trim text)

def read (bytes : List UInt8) : Except FormulaError Cnf := do
  let p ← (Text.allLines bytes).foldlM readLine ⟨none, [], []⟩
  match p.header with
  | none => .error .missingHeader
  | some h =>
    if p.current ≠ [] then .error .truncated
    else if p.finished.length ≠ h.clauses then
      .error (.clauseCountMismatch h.clauses p.finished.length)
    else .ok p.finished

/-- Reads the formula in a file, given its path and the content it was set to, if any. -/
def ofFile (path : String) (content : Option (List UInt8)) : Except FormulaError Cnf := do
  let file ← (Path.load path content).mapError (.unopened path)
  read (← file.bytes.mapError .unreadable)

/-- Writes a formula to a file. The result is the content of the file. -/
def toFile (path : String) (f : Cnf) : Except FormulaError (List Char) := do
  (Path.create path).mapError (.unopened path)
  return write f

end SoftError.Dimacs

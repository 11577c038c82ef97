import SoftError.Path

/-!
# What can go wrong with a formula

Most causes are defects of a written formula; a missing name is one of a renaming.
-/

namespace SoftError

inductive FormulaError where
  | missingHeader
  | malformedHeader (line : String)
  | secondHeader (line : String)
  | invalidToken (token : String)
  | literalOutOfRange (value : Int) (maxVar : Nat)
  | truncated
  | clauseCountMismatch (declared found : Nat)
  | missingName (var : Nat)
  | notText
  /-- A file that cannot be opened. -/
  | unopened (path : String) (cause : FileError)
  /-- A file that cannot be read. -/
  | unreadable (cause : FileError)
deriving DecidableEq

def FormulaError.message : FormulaError → String
  | missingHeader => "missing dimacs header"
  | malformedHeader line => s!"malformed dimacs header: {line}"
  | secondHeader line => s!"malformed dimacs header: second header {line}"
  | invalidToken token => s!"invalid dimacs token: {token}"
  | literalOutOfRange value maxVar => s!"literal {value} exceeds declared max variable {maxVar}"
  | truncated => "truncated clause list: last clause is not terminated by 0"
  | clauseCountMismatch declared found =>
    s!"header declares {declared} clauses but {found} were read"
  | missingName v => s!"no renaming given for variable {v}"
  | notText => "io error: stream did not contain valid UTF-8"
  | unopened path cause => s!"io error: {path}: {cause.message}"
  | unreadable cause => "io error: " ++ cause.message

end SoftError

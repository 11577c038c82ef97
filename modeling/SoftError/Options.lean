/-!
# Options of the analyses
-/

namespace SoftError

/-- What decides the formulas of an analysis. -/
inductive Backend where
  | search
  | diagram
deriving DecidableEq

structure Options where
  /-- Number of latches of the protection logic. They are the last ones of the circuit, and
  neither flipped nor compared. -/
  reserved : Nat := 0
  randomModels : Bool := false
  minimalCores : Bool := false
  seed : UInt64 := 0
  /-- Whether vulnerabilities come with a trace. -/
  diagnostic : Bool := true
  backend : Backend := .search
deriving DecidableEq

end SoftError

/-!
# Signals

A signal names a variable of a circuit, possibly complemented. Its code is twice the
variable, plus one for a complemented signal. Variable `0` is the constant false, so
code `0` is false and code `1` is true.
-/

namespace SoftError

structure Signal where
  code : Nat
deriving DecidableEq

namespace Signal

def var (s : Signal) : Nat := s.code / 2

def negated (s : Signal) : Bool := s.code % 2 == 1

/-- The plain signal of a variable. -/
def ofVar (v : Nat) : Signal := ⟨2 * v⟩

theorem var_ofVar (v : Nat) : (ofVar v).var = v := by
  simp [ofVar, var]

theorem negated_ofVar (v : Nat) : (ofVar v).negated = false := by
  simp [ofVar, negated]

end Signal

end SoftError

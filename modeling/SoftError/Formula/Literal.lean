/-!
# Literals

A literal is a non-zero integer. Its magnitude is the variable and its sign the polarity.
Variable `1` is reserved for the constant: `Lit.bot` is the literal `1` and `Lit.top` its
complement, and formulas assert `Lit.top` to pin the constant to false.

The numbers are not bounded. They stand for literals in signed 32-bit words and for variables in
unsigned ones as long as no variable exceeds `Lit.maxVar`; then a literal and its complement are
words.
-/

namespace SoftError

/-- A truth value for each variable. -/
abbrev Assignment := Nat → Bool

structure Lit where
  val : Int
  ne_zero : val ≠ 0
deriving DecidableEq

namespace Lit

def ofInt? (i : Int) : Option Lit := if h : i = 0 then none else some ⟨i, h⟩

/-- The positive literal of a variable. -/
def ofVar (v : Nat) (h : v ≠ 0) : Lit := ⟨v, by omega⟩

def ofVar? (v : Nat) : Option Lit := if h : v = 0 then none else some (ofVar v h)

/-- A numeral is the positive literal of that variable. -/
instance (n : Nat) : OfNat Lit (n + 1) := ⟨ofVar (n + 1) (Nat.succ_ne_zero n)⟩

def bot : Lit := ⟨1, by decide⟩

def top : Lit := ⟨-1, by decide⟩

def var (l : Lit) : Nat := l.val.natAbs

def positive (l : Lit) : Bool := 0 < l.val

def isConstant (l : Lit) : Bool := l.var == 1

instance : Neg Lit := ⟨fun l => ⟨-l.val, by have := l.ne_zero; omega⟩⟩

/-- The constant literal of a truth value. -/
def ofBool (b : Bool) : Lit := if b then top else bot

/-- The literal of `l`'s variable with the given polarity. -/
def withSign (l : Lit) (positive : Bool) : Lit :=
  if l.positive == positive then l else -l

def lt (a b : Lit) : Bool := a.val < b.val

/-- The value of a literal, given that of its variable. -/
def eval (l : Lit) (value : Bool) : Bool := if l.positive then value else !value

def holds (ρ : Assignment) (l : Lit) : Bool := l.eval (ρ l.var)

/-- The largest variable whose literals are signed 32-bit words. -/
def maxVar : Nat := (1 <<< 31) - 1

/-- Both the literal and its complement are signed 32-bit words. -/
def InRange (l : Lit) : Prop := l.var ≤ maxVar

instance (l : Lit) : Decidable l.InRange := inferInstanceAs (Decidable (_ ≤ _))

/-- Whether the literal is a signed 32-bit word. The least word has no complement. -/
def isWord (l : Lit) : Bool := -(maxVar + 1 : Int) ≤ l.val ∧ l.val ≤ maxVar

theorem ext {a b : Lit} (h : a.val = b.val) : a = b := by
  cases a
  cases b
  simp_all

@[simp]
theorem val_neg (l : Lit) : (-l).val = -l.val := rfl

@[simp]
theorem neg_neg (l : Lit) : - -l = l := ext (by simp)

@[simp]
theorem var_neg (l : Lit) : (-l).var = l.var := by simp [var]

@[simp]
theorem positive_neg (l : Lit) : (-l).positive = !l.positive := by
  have := l.ne_zero
  simp only [positive, val_neg, Bool.eq_not]
  by_cases h : 0 < l.val <;> simp <;> omega

@[simp]
theorem holds_neg (ρ : Assignment) (l : Lit) : (-l).holds ρ = !l.holds ρ := by
  simp only [holds, eval, var_neg, positive_neg]
  cases l.positive <;> simp

theorem inRange_iff {l : Lit} : l.InRange ↔ l.isWord = true ∧ (-l).isWord = true := by
  rw [InRange, var, isWord, isWord, decide_eq_true_eq, decide_eq_true_eq, val_neg]
  omega

theorem eq_of_var_of_positive {a b : Lit} (hVar : a.var = b.var)
    (hSign : a.positive = b.positive) : a = b := by
  apply ext
  have hA := a.ne_zero
  have hB := b.ne_zero
  simp only [var, positive, decide_eq_decide] at hVar hSign
  omega

theorem holds_iff (ρ : Assignment) (l : Lit) : l.holds ρ = true ↔ ρ l.var = l.positive := by
  rw [holds, eval]
  cases l.positive <;> simp

theorem holds_congr {ρ ρ' : Assignment} {l : Lit} (h : ρ l.var = ρ' l.var) :
    l.holds ρ = l.holds ρ' := by
  rw [holds, holds, h]

end Lit

/-- The assignment that makes the given literals true. A later literal of the same variable
wins, and unmentioned variables are false. -/
def Assignment.ofLits (ls : List Lit) : Assignment := fun v =>
  ((ls.reverse.find? fun l => l.var = v).map Lit.positive).getD false

end SoftError

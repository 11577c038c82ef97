import SoftError.Formula.Basic

/-!
# Resolution

A formula entails the resolvent of any two clauses that it entails. The clauses are kept in
the order of their variables, so that a resolvent is a merge of two lists.
-/

namespace SoftError

/-- By variables, and of two literals of a variable the negative one first. -/
def Lit.precedes (a b : Lit) : Bool := a.var < b.var || (a.var == b.var && a.lt b)

namespace Clause

/-- Adds a literal to an ordered clause at its place, unless it is there already. -/
def place (l : Lit) : Clause → Clause
  | [] => [l]
  | a :: c => if a = l then a :: c else if l.precedes a then l :: a :: c else a :: place l c

/-- The literals in order and without repetitions. -/
def ordered (c : Clause) : Clause := c.foldr place []

/-- What is left of an ordered clause with `p` and one with its complement. -/
def resolvent (p : Lit) : Clause → Clause → Clause
  | [], d => d.filter (· ≠ -p)
  | c, [] => c.filter (· ≠ p)
  | a :: c, b :: d =>
    if a = p then resolvent p c (b :: d)
    else if b = -p then resolvent p (a :: c) d
    else if a = b then a :: resolvent p c d
    else if a.precedes b then a :: resolvent p c (b :: d)
    else b :: resolvent p (a :: c) d
termination_by c d => c.length + d.length

theorem mem_place {a l : Lit} {c : Clause} : a ∈ place l c ↔ a = l ∨ a ∈ c := by
  fun_induction place l c <;> grind

theorem mem_ordered {a : Lit} {c : Clause} : a ∈ ordered c ↔ a ∈ c := by
  rw [ordered]
  induction c with
  | nil => simp
  | cons b c ih => simp [mem_place, ih]

theorem mem_resolvent_of_left {p a : Lit} {c d : Clause} (h : a ∈ c) (hp : a ≠ p) :
    a ∈ resolvent p c d := by
  fun_induction resolvent p c d <;> grind

theorem mem_resolvent_of_right {p a : Lit} {c d : Clause} (h : a ∈ d) (hp : a ≠ -p) :
    a ∈ resolvent p c d := by
  fun_induction resolvent p c d <;> grind

theorem holds_ordered {ρ : Assignment} {c : Clause} (h : c.holds ρ = true) :
    c.ordered.holds ρ = true := by
  obtain ⟨l, hl, hHolds⟩ := holds_iff.mp h
  exact holds_iff.mpr ⟨l, mem_ordered.mpr hl, hHolds⟩

theorem holds_resolvent {ρ : Assignment} {p : Lit} {c d : Clause} (hc : c.holds ρ = true)
    (hd : d.holds ρ = true) : (resolvent p c d).holds ρ = true := by
  obtain ⟨a, ha, haHolds⟩ := holds_iff.mp hc
  obtain ⟨b, hb, hbHolds⟩ := holds_iff.mp hd
  by_cases hp : a = p
  · refine holds_iff.mpr ⟨b, mem_resolvent_of_right hb ?_, hbHolds⟩
    rintro rfl
    simp [← hp, haHolds] at hbHolds
  · exact holds_iff.mpr ⟨a, mem_resolvent_of_left ha hp, haHolds⟩

end Clause

/-- Every model of the formula satisfies the clause. -/
def Cnf.Entails (f : Cnf) (c : Clause) : Prop := ∀ ρ, f.holds ρ = true → c.holds ρ = true

theorem Cnf.Entails.cons {f : Cnf} {d : Clause} (h : f.Entails d) (c : Clause) :
    Cnf.Entails (c :: f) d :=
  fun ρ hf => h ρ (Bool.and_eq_true_iff.mp hf).2

/-- A clause that follows from a formula. -/
structure Consequence (f : Cnf) where
  clause : Clause
  entailed : f.Entails clause

namespace Consequence

variable {f : Cnf}

/-- A clause that holds in any case. -/
def trivial : Consequence f := ⟨[.bot, .top], fun ρ _ => by
  cases h : ρ 1 <;> simp [Clause.holds, Lit.holds, Lit.eval, Lit.bot, Lit.top, Lit.var,
    Lit.positive, h]⟩

def ofMem (c : Clause) (h : c ∈ f) : Consequence f :=
  ⟨c.ordered, fun _ hf => Clause.holds_ordered (List.all_eq_true.mp hf c h)⟩

def resolve (p : Lit) (c d : Consequence f) : Consequence f :=
  ⟨Clause.resolvent p c.clause d.clause,
    fun ρ hf => Clause.holds_resolvent (c.entailed ρ hf) (d.entailed ρ hf)⟩

/-- What follows from a formula follows from a longer one. -/
def weaken (c : Clause) (d : Consequence f) : Consequence (c :: f) := ⟨d.clause, d.entailed.cons c⟩

/-- A formula with the empty clause as a consequence has no models. -/
theorem holds_eq_false {c : Consequence f} (h : c.clause = []) (ρ : Assignment) :
    f.holds ρ = false := by
  cases hf : f.holds ρ with
  | false => rfl
  | true =>
    have := c.entailed ρ hf
    simp [h, Clause.holds] at this

end Consequence

/-- Clauses that follow from a formula, by number. -/
structure Consequences (f : Cnf) where
  clauses : Array Clause
  entailed : ∀ c ∈ clauses, f.Entails c

namespace Consequences

variable {f : Cnf}

def empty : Consequences f := ⟨#[], by simp⟩

def size (cs : Consequences f) : Nat := cs.clauses.size

/-- A number without a clause stands for a trivial one. -/
def get (cs : Consequences f) (i : Nat) : Consequence f :=
  if h : i < cs.clauses.size then ⟨cs.clauses[i], cs.entailed _ (Array.getElem_mem h)⟩ else .trivial

def push (cs : Consequences f) (c : Consequence f) : Consequences f :=
  ⟨cs.clauses.push c.clause, fun d hd => by
    rcases Array.mem_push.mp hd with hd | rfl
    · exact cs.entailed d hd
    · exact c.entailed⟩

/-- Replaces a clause by a trivial one. -/
def forget (cs : Consequences f) (i : Nat) : Consequences f :=
  ⟨cs.clauses.setIfInBounds i (Consequence.trivial : Consequence f).clause, fun d hd => by
    rcases Array.mem_or_eq_of_mem_setIfInBounds hd with hd | rfl
    · exact cs.entailed d hd
    · exact Consequence.trivial.entailed⟩

/-- What follows from a formula follows from a longer one. -/
def weaken (c : Clause) (cs : Consequences f) : Consequences (c :: f) :=
  ⟨cs.clauses, fun d hd => (cs.entailed d hd).cons c⟩

end Consequences

end SoftError

import SoftError.Formula.Literal
import Std.Data.TreeMap

/-!
# Remembered conjunctions

A table of the literals that stand for conjunctions of two literals, found in either order
of the two.
-/

namespace SoftError

structure Conjunctions where
  /-- For the smaller literal of a pair, the larger ones with the conjunctions. -/
  rows : Std.TreeMap Int (List (Lit × Lit)) := ∅

namespace Conjunctions

/-- The smaller literal of a pair, then the larger one. -/
def key (a b : Lit) : Lit × Lit := if a.lt b then (a, b) else (b, a)

def find? (t : Conjunctions) (a b : Lit) : Option Lit :=
  (t.rows.getD (key a b).1.val []).lookup (key a b).2

def insert (t : Conjunctions) (a b l : Lit) : Conjunctions :=
  let (a, b) := key a b
  ⟨t.rows.insert a.val ((b, l) :: t.rows.getD a.val [])⟩

@[simp]
theorem find?_empty (a b : Lit) : find? {} a b = none := by
  simp [find?]

theorem find?_insert (t : Conjunctions) (a b l c d : Lit) :
    (t.insert a b l).find? c d = if key a b = key c d then some l else t.find? c d := by
  simp only [find?, insert, Std.TreeMap.getD_insert, Std.LawfulEqCmp.compare_eq_iff_eq]
  by_cases hFirst : (key a b).1.val = (key c d).1.val
  · by_cases hSecond : (key c d).2 = (key a b).2
    · simp [hSecond, Prod.ext_iff, Lit.ext hFirst]
    · have hKey : key a b ≠ key c d := fun h => hSecond (by rw [h])
      simp [hFirst, hKey, List.lookup_cons, beq_eq_false_iff_ne.mpr hSecond]
  · have hKey : key a b ≠ key c d := fun h => hFirst (by rw [h])
    simp [hFirst, hKey]

end Conjunctions

end SoftError

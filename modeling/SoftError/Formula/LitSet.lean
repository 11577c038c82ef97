import SoftError.Formula.Literal
import Std.Data.TreeSet

/-!
# Sets of literals
-/

namespace SoftError

structure LitSet where
  vals : Std.TreeSet Int := ∅

namespace LitSet

instance : Membership Lit LitSet := ⟨fun s l => l.val ∈ s.vals⟩

instance (l : Lit) (s : LitSet) : Decidable (l ∈ s) := inferInstanceAs (Decidable (l.val ∈ s.vals))

def insert (s : LitSet) (l : Lit) : LitSet := ⟨s.vals.insert l.val⟩

/-- The literals in ascending order. -/
def toList (s : LitSet) : List Lit := s.vals.toList.filterMap Lit.ofInt?

theorem mem_def {s : LitSet} {l : Lit} : l ∈ s ↔ l.val ∈ s.vals := Iff.rfl

@[simp]
theorem not_mem_empty (l : Lit) : l ∉ ({} : LitSet) := by
  simp [mem_def]

@[simp]
theorem mem_insert {s : LitSet} {k l : Lit} : k ∈ s.insert l ↔ k = l ∨ k ∈ s := by
  simp only [mem_def, insert, Std.TreeSet.mem_insert, Std.LawfulEqCmp.compare_eq_iff_eq]
  exact or_congr_left ⟨fun h => Lit.ext h.symm, fun h => by rw [h]⟩

@[simp]
theorem mem_toList {s : LitSet} {l : Lit} : l ∈ s.toList ↔ l ∈ s := by
  simp only [toList, List.mem_filterMap, Std.TreeSet.mem_toList, mem_def]
  constructor
  · rintro ⟨i, hi, h⟩
    rw [Lit.ofInt?] at h
    split at h
    · cases h
    · cases h
      exact hi
  · intro h
    exact ⟨l.val, h, by simp [Lit.ofInt?, l.ne_zero]⟩

end LitSet

end SoftError

import Mathlib.Data.List.Sort
import SoftError.Ascending

/-!
# Ascending lists as sets

Insertion adds one element, provided that elements which cannot be told apart are equal. An
ascending list is determined by its elements.
-/

namespace SoftError.Ascending

variable {α : Type} {lt : α → α → Bool}

theorem mem_insert {x y : α} {xs : List α}
    (hTotal : ∀ z ∈ xs, lt x z = false → lt z x = false → x = z) :
    y ∈ insert lt x xs ↔ y = x ∨ y ∈ xs := by
  induction xs with
  | nil => simp [insert]
  | cons z zs ih =>
    rw [List.forall_mem_cons] at hTotal
    rw [insert]
    split
    · rw [List.mem_cons]
    · rename_i hxz
      split
      · rw [List.mem_cons, ih hTotal.2, List.mem_cons, or_left_comm]
      · rename_i hzx
        obtain rfl := hTotal.1 (Bool.not_eq_true _ ▸ hxz) (Bool.not_eq_true _ ▸ hzx)
        rw [List.mem_cons, ← or_assoc, or_self]

theorem eq_or_mem_of_mem_insert {x y : α} {xs : List α} (h : y ∈ insert lt x xs) :
    y = x ∨ y ∈ xs := by
  induction xs with
  | nil => simpa [insert] using h
  | cons z zs ih =>
    rw [insert] at h
    split at h
    · exact List.mem_cons.mp h
    · split at h
      · rcases List.mem_cons.mp h with rfl | h
        · exact .inr List.mem_cons_self
        · exact (ih h).imp_right (List.mem_cons_of_mem z)
      · exact .inr h

theorem mem_ofList {y : α} {xs : List α}
    (hTotal : ∀ a ∈ xs, ∀ b ∈ xs, lt a b = false → lt b a = false → a = b) :
    y ∈ ofList lt xs ↔ y ∈ xs := by
  have hFold : ∀ set : List α,
      (∀ a ∈ set ++ xs, ∀ b ∈ set ++ xs, lt a b = false → lt b a = false → a = b) →
      (y ∈ xs.foldl (fun set x => insert lt x set) set ↔ y ∈ set ∨ y ∈ xs) := by
    clear hTotal
    induction xs with
    | nil => simp
    | cons x xs ih =>
      intro set hTotal
      have hInsert : ∀ z, z ∈ insert lt x set ↔ z = x ∨ z ∈ set := fun z =>
        mem_insert fun z hz => hTotal x (by simp) z (by simp [hz])
      rw [List.foldl_cons, ih _ fun a ha b hb => ?_, hInsert, List.mem_cons,
        or_comm (a := y = x), or_assoc]
      rw [List.mem_append, hInsert] at ha hb
      exact hTotal a (by grind) b (by grind)
  rw [ofList, hFold [] hTotal]
  simp

theorem eq_of_mem_iff {r : α → α → Prop} (hAsymm : ∀ a b, r a b → ¬ r b a) {xs ys : List α}
    (hxs : xs.Pairwise r) (hys : ys.Pairwise r) (h : ∀ y, y ∈ xs ↔ y ∈ ys) : xs = ys := by
  have hNodup : ∀ {zs : List α}, zs.Pairwise r → zs.Nodup := by
    intro zs hzs
    refine hzs.imp ?_
    rintro a _ hab rfl
    exact hAsymm a a hab hab
  refine List.Perm.eq_of_pairwise (fun a b _ _ hab hba => absurd hba (hAsymm a b hab)) hxs hys ?_
  exact (List.perm_ext_iff_of_nodup (hNodup hxs) (hNodup hys)).mpr h

section Sorted

variable (hTrans : ∀ a b c, lt a b = true → lt b c = true → lt a c = true)
include hTrans

theorem pairwise_insert {x : α} {xs : List α} (h : xs.Pairwise fun a b => lt a b = true) :
    (insert lt x xs).Pairwise fun a b => lt a b = true := by
  induction xs with
  | nil => simp [insert]
  | cons z zs ih =>
    have hzs := List.pairwise_cons.mp h
    rw [insert]
    split
    · rename_i hxz
      refine List.pairwise_cons.mpr ⟨fun y hy => ?_, h⟩
      rcases List.mem_cons.mp hy with rfl | hy
      · exact hxz
      · exact hTrans x z y hxz (hzs.1 y hy)
    · split
      · rename_i hzx
        refine List.pairwise_cons.mpr ⟨fun y hy => ?_, ih hzs.2⟩
        rcases eq_or_mem_of_mem_insert hy with rfl | hy
        · exact hzx
        · exact hzs.1 y hy
      · exact h

theorem pairwise_ofList (xs : List α) : (ofList lt xs).Pairwise fun a b => lt a b = true := by
  rw [ofList]
  exact List.foldlRecOn xs _ List.Pairwise.nil
    fun _ hSet _ _ => pairwise_insert hTrans hSet

theorem ofList_congr (hTotal : ∀ a b, lt a b = false → lt b a = false → a = b)
    (hIrrefl : ∀ a, lt a a = false) {xs ys : List α}
    (h : ∀ y, y ∈ xs ↔ y ∈ ys) : ofList lt xs = ofList lt ys := by
  have hAsymm : ∀ a b, lt a b = true → ¬ lt b a = true := by
    intro a b hab hba
    have := hTrans a b a hab hba
    rw [hIrrefl] at this
    cases this
  refine eq_of_mem_iff hAsymm (pairwise_ofList hTrans xs) (pairwise_ofList hTrans ys) fun y => ?_
  rw [mem_ofList fun a _ b _ => hTotal a b, mem_ofList fun a _ b _ => hTotal a b, h]

end Sorted

section Keyed

variable {κ : Type} [LinearOrder κ] {key : α → κ} (hKey : Function.Injective key)
  (hLt : ∀ a b, lt a b = true ↔ key a < key b)
include hLt

theorem pairwise_lt_ofList (xs : List α) : (ofList lt xs).Pairwise fun a b => lt a b = true := by
  refine pairwise_ofList (fun a b c => ?_) xs
  rw [hLt, hLt, hLt]
  exact lt_trans

include hKey

theorem mem_ofList_iff {y : α} {xs : List α} : y ∈ ofList lt xs ↔ y ∈ xs := by
  refine mem_ofList fun a _ b _ hab hba => hKey ?_
  rw [← Bool.not_eq_true, hLt, not_lt] at hab hba
  exact le_antisymm hba hab

/-- Ascending lists are equal if they are made of the same elements. -/
theorem ofList_eq_ofList_iff {xs ys : List α} :
    ofList lt xs = ofList lt ys ↔ ∀ y, y ∈ xs ↔ y ∈ ys := by
  constructor
  · intro hEq y
    rw [← mem_ofList_iff hKey hLt, hEq, mem_ofList_iff hKey hLt]
  · intro hMem
    have hAsymm : ∀ a b, lt a b = true → ¬ lt b a = true := by
      intro a b
      rw [hLt, hLt]
      exact lt_asymm
    refine eq_of_mem_iff hAsymm (pairwise_lt_ofList hLt xs) (pairwise_lt_ofList hLt ys) fun y => ?_
    rw [mem_ofList_iff hKey hLt, mem_ofList_iff hKey hLt, hMem]

end Keyed

end SoftError.Ascending

import Mathlib.Algebra.Order.Ring.Int
import SoftError.Text.Blank
import SoftError.Text.Numeral

/-!
# Written numerals

A written number is a word of its own, and reading it gives the number back if it fits the word
type. What a word type holds is never changed by cutting it to that type.
-/

namespace SoftError.Text

/-- Words are not empty and have no blanks. -/
def IsWord (w : List Char) : Prop := w ≠ [] ∧ ∀ c ∈ w, isBlank c = false

instance (w : List Char) : Decidable (IsWord w) :=
  decidable_of_iff (!w.isEmpty && w.all fun c => !isBlank c) (by simp [IsWord])

theorem isBlank_of_isDigit {c : Char} (h : c.isDigit = true) : isBlank c = false := by
  obtain ⟨hLow, hHigh⟩ := Char.isDigit_iff_toNat.mp h
  have hZero : '0'.toNat = 48 := rfl
  have hNine : '9'.toNat = 57 := rfl
  simp only [isBlank, Bool.or_eq_false_iff, Bool.and_eq_false_iff, decide_eq_false_iff_not,
    beq_eq_false_iff_ne]
  omega

theorem isDigit_of_mem_writeNat {n : Nat} {c : Char} (h : c ∈ writeNat n) : c.isDigit = true :=
  Nat.isDigit_of_mem_toDigits (by decide) (by decide) h

theorem isWord_writeNat (n : Nat) : IsWord (writeNat n) :=
  ⟨Nat.toDigits_ne_nil, fun _ hc => isBlank_of_isDigit (isDigit_of_mem_writeNat hc)⟩

theorem isWord_writeInt (i : Int) : IsWord (writeInt i) := by
  cases i with
  | ofNat n => exact isWord_writeNat n
  | negSucc n =>
    exact ⟨List.cons_ne_nil _ _, List.forall_mem_cons.mpr ⟨by decide, (isWord_writeNat _).2⟩⟩

/-- A written number starts with a digit or a minus sign. -/
theorem head_writeInt {i : Int} {c : Char} {cs : List Char} (h : writeInt i = c :: cs) :
    c.isDigit = true ∨ c = '-' := by
  cases i with
  | ofNat n =>
    rw [writeInt] at h
    exact .inl (isDigit_of_mem_writeNat (n := n) (h ▸ List.mem_cons_self))
  | negSucc n =>
    obtain ⟨rfl, -⟩ := List.cons.inj h
    exact .inr rfl

theorem readDigits_writeNat (n : Nat) : readDigits (writeNat n) = some n := by
  have hDigits : (writeNat n).all Char.isDigit = true :=
    List.all_eq_true.mpr fun _ hc => isDigit_of_mem_writeNat hc
  have hNonempty : (writeNat n).isEmpty = false := List.isEmpty_eq_false_iff.mpr Nat.toDigits_ne_nil
  rw [readDigits, hDigits, hNonempty, writeNat, Nat.ofDigitChars_ten_toDigits]
  rfl

theorem readNat_writeNat (n : Nat) : readNat (writeNat n) = some n := by
  rw [← readDigits_writeNat]
  unfold readNat
  split
  · rename_i cs hPlus
    exact absurd (isDigit_of_mem_writeNat (n := n) (hPlus ▸ List.mem_cons_self)) (by decide)
  · rfl

theorem readWord_writeNat {bits n : Nat} (h : n < 2 ^ bits) :
    readWord bits (writeNat n) = some n := by
  rw [readWord, readNat_writeNat, Option.filter_some, Nat.one_shiftLeft, decide_eq_true h,
    if_pos rfl]

theorem lt_of_readWord {bits n : Nat} {cs : List Char} (h : readWord bits cs = some n) :
    n < 2 ^ bits := by
  rw [readWord, Option.filter_eq_some_iff, Nat.one_shiftLeft] at h
  exact of_decide_eq_true h.2

theorem readInt_writeInt (i : Int) : readInt (writeInt i) = some i := by
  cases i with
  | ofNat n =>
    unfold readInt writeInt
    split
    · rename_i cs hMinus
      exact absurd (isDigit_of_mem_writeNat (n := n) (hMinus ▸ List.mem_cons_self)) (by decide)
    · rw [readNat_writeNat]
      rfl
  | negSucc n =>
    rw [writeInt, readInt, readDigits_writeNat]
    rfl

/-- The numbers that a signed word of so many bits can hold. -/
def InRange (bits : Nat) (i : Int) : Prop := -2 ^ (bits - 1) ≤ i ∧ i < 2 ^ (bits - 1)

theorem InRange.mono {bits bits' : Nat} {i : Int} (h : InRange bits i) (hLe : bits ≤ bits') :
    InRange bits' i := by
  have hPow : (2 : Int) ^ (bits - 1) ≤ 2 ^ (bits' - 1) :=
    pow_le_pow_right₀ (by decide) (Nat.sub_le_sub_right hLe 1)
  obtain ⟨hLow, hHigh⟩ := h
  exact ⟨by omega, by omega⟩

theorem readSignedWord_writeInt {bits : Nat} {i : Int} (h : InRange bits i) :
    readSignedWord bits (writeInt i) = some i := by
  have hBound : ((1 <<< (bits - 1) : Nat) : Int) = 2 ^ (bits - 1) := by
    rw [Nat.one_shiftLeft]
    exact Nat.cast_pow 2 (bits - 1)
  simp only [readSignedWord, hBound, readInt_writeInt, Option.filter_some, decide_eq_true h.1,
    decide_eq_true h.2, Bool.and_self, if_true]

theorem modulus_eq (bits : Nat) : ((1 <<< (bits + 1) : Nat) : Int) = 2 * 2 ^ bits := by
  rw [Nat.one_shiftLeft, Nat.pow_succ']
  push_cast
  rfl

theorem truncate_of_inRange {bits : Nat} {i : Int} (h : InRange (bits + 1) i) :
    truncate (bits + 1) i = i := by
  obtain ⟨hLow, hHigh⟩ := h
  rw [Nat.add_sub_cancel] at hLow hHigh
  rw [truncate]
  refine Int.bmod_eq_of_le ?_ ?_ <;> rw [modulus_eq] <;> omega

theorem inRange_truncate (bits : Nat) (i : Int) : InRange (bits + 1) (truncate (bits + 1) i) := by
  have hPos : 0 < 1 <<< (bits + 1) := by
    rw [Nat.one_shiftLeft]
    exact Nat.two_pow_pos _
  have hLow := Int.le_bmod (x := i) hPos
  have hHigh := Int.bmod_lt (x := i) hPos
  rw [modulus_eq] at hLow hHigh
  rw [InRange, truncate, Nat.add_sub_cancel]
  omega

theorem natAbs_truncate_le (bits : Nat) (i : Int) :
    (truncate (bits + 1) i).natAbs ≤ i.natAbs := by
  by_cases hi : InRange (bits + 1) i
  · rw [truncate_of_inRange hi]
  · obtain ⟨hLow, hHigh⟩ := inRange_truncate bits i
    rw [InRange] at hi
    omega

end SoftError.Text

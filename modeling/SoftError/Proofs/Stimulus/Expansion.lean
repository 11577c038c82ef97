import Mathlib.Data.Nat.Bitwise
import SoftError.Proofs.Stimulus.Admits
import SoftError.Stimulus.Expansion

/-!
# Expansions cover a stimulus

The fillings of a stimulus are inputs that it admits. Conversely, the values that some inputs
have where the stimulus is free are the digits of a number, and its filling gives them back.
-/

namespace SoftError.Stimulus

theorem admits_fillStep (values : List Bool) (step : List Level) :
    List.Forall₂ Level.Admits step (fillStep values step).1 := by
  induction step generalizing values with
  | nil => exact .nil
  | cons v vs ih =>
    unfold fillStep
    split
    · rename_i b hDefinite
      exact .cons (.inr (Level.eq_ofBool_of_toBool? hDefinite)) (ih _)
    · rename_i hFree
      exact .cons (.inl (Level.toBool?_eq_none_iff.mp hFree)) (ih [])
    · rename_i b rest hFree
      exact .cons (.inl (Level.toBool?_eq_none_iff.mp hFree)) (ih rest)

theorem admits_fillSteps (values : List Bool) (steps : List (List Level)) :
    AdmitsSteps steps (fillSteps values steps) := by
  induction steps generalizing values with
  | nil => exact .nil
  | cons step steps ih => exact .cons (admits_fillStep values step) (ih _)

theorem admits_filling (s : Stimulus) (n : Nat) : s.Admits (s.filling n) :=
  admits_fillSteps _ s.steps

theorem exists_fillStep {step : List Level} {xs : List Bool}
    (h : List.Forall₂ Level.Admits step xs) :
    ∃ values, values.length = step.count .free ∧
      ∀ rest, fillStep (values ++ rest) step = (xs, rest) := by
  induction h with
  | nil => exact ⟨[], rfl, fun rest => rfl⟩
  | @cons v b vs xs hv _ ih =>
    obtain ⟨values, hLength, hFill⟩ := ih
    by_cases hFree : v = .free
    · subst hFree
      refine ⟨b :: values, by simp [hLength], fun rest => ?_⟩
      simp [fillStep, Level.toBool?, hFill]
    · obtain rfl := hv.resolve_left hFree
      refine ⟨values, by rw [hLength, List.count_cons_of_ne hFree], fun rest => ?_⟩
      simp [fillStep, Level.toBool?_ofBool, hFill]

theorem exists_fillSteps {steps : List (List Level)} {inputs : List (List Bool)}
    (h : AdmitsSteps steps inputs) :
    ∃ values, values.length = steps.flatten.count .free ∧ fillSteps values steps = inputs := by
  induction h with
  | nil => exact ⟨[], rfl, rfl⟩
  | @cons step xs steps inputs hStep _ ih =>
    obtain ⟨values, hLength, hFill⟩ := exists_fillStep hStep
    obtain ⟨more, hMore, hRest⟩ := ih
    refine ⟨values ++ more, ?_, ?_⟩
    · rw [List.length_append, hLength, hMore, List.flatten_cons, List.count_append]
    · simp only [fillSteps, hFill, hRest]

theorem digits_succ (count n : Nat) (b : Bool) :
    digits (count + 1) (n.bit b) = b :: digits count n := by
  rw [digits, List.range_succ_eq_map, List.map_cons, List.map_map, Nat.testBit_bit_zero, digits]
  exact congrArg (b :: ·) (List.map_congr_left fun i _ => Nat.testBit_bit_succ i b n)

theorem exists_digits (values : List Bool) :
    ∃ n < 2 ^ values.length, digits values.length n = values := by
  induction values with
  | nil => exact ⟨0, Nat.one_pos, rfl⟩
  | cons b values ih =>
    obtain ⟨n, hn, hDigits⟩ := ih
    refine ⟨n.bit b, ?_, by rw [List.length_cons, digits_succ, hDigits]⟩
    rw [List.length_cons, Nat.pow_succ, Nat.bit_val]
    have := b.toNat_le
    omega

/-- Counting up to the number of ways to fill in the free inputs meets all of them. -/
theorem exists_filling {s : Stimulus} {inputs : List (List Bool)} (h : s.Admits inputs) :
    ∃ n ∈ List.range (1 <<< s.freeCount), s.filling n = inputs := by
  obtain ⟨values, hLength, hFill⟩ := exists_fillSteps h
  obtain ⟨n, hn, hDigits⟩ := exists_digits values
  rw [hLength] at hn hDigits
  refine ⟨n, ?_, ?_⟩
  · rw [List.mem_range, Nat.one_shiftLeft]
    exact hn
  · rw [filling, freeCount, hDigits, hFill]

end SoftError.Stimulus

/-!
# Computations that may fail

A sequence returns a value only if each of its parts does. A checked fold returns one if all its
steps do, and fails as one of them does.
-/

namespace SoftError

variable {ε ε' α β : Type}

theorem exists_of_bind_eq_ok {x : Except ε α} {f : α → Except ε β} {b : β}
    (h : (x >>= f) = .ok b) : ∃ a, x = .ok a ∧ f a = .ok b := by
  cases x with
  | error e => cases h
  | ok a => exact ⟨a, rfl, h⟩

theorem eq_ok_of_mapError {x : Except ε α} {f : ε → ε'} {a : α} (h : x.mapError f = .ok a) :
    x = .ok a := by
  cases x with
  | error e => cases h
  | ok a => exact congrArg Except.ok (Except.ok.inj h)

theorem eq_ok_of_toOption {x : Except ε α} {a : α} (h : x.toOption = some a) : x = .ok a := by
  cases x with
  | error e => cases h
  | ok b => exact congrArg Except.ok (Option.some.inj h)

section Fold

variable {g : β → α → Except ε β} {xs : List α} {b : β}

/-- What a checked fold keeps if each of its steps does, as a property of what it has read. -/
theorem of_foldlM {P : List α → β → Prop} {b' : β}
    (hStep : ∀ done b a b', P done b → g b a = .ok b' → P (done ++ [a]) b')
    (hb : P [] b) (h : xs.foldlM g b = .ok b') : P xs b' := by
  have hFold : ∀ done b, P done b → xs.foldlM g b = .ok b' → P (done ++ xs) b' := by
    clear hb h
    induction xs with
    | nil =>
      intro done b hb h
      cases h
      rwa [List.append_nil]
    | cons a xs ih =>
      intro done b hb h
      rw [List.foldlM_cons] at h
      obtain ⟨b₁, hg, h⟩ := exists_of_bind_eq_ok h
      rw [List.append_cons]
      exact ih (done ++ [a]) b₁ (hStep done b a b₁ hb hg) h
  exact hFold [] b hb h

theorem exists_of_foldlM_eq_error {e : ε} (h : xs.foldlM g b = .error e) :
    ∃ b', ∃ x ∈ xs, g b' x = .error e := by
  induction xs generalizing b with
  | nil => cases h
  | cons x xs ih =>
    rw [List.foldlM_cons] at h
    cases hx : g b x with
    | error e' =>
      rw [hx] at h
      cases h
      exact ⟨b, x, List.mem_cons_self, hx⟩
    | ok b₁ =>
      rw [hx] at h
      obtain ⟨b', y, hy, hError⟩ := ih h
      exact ⟨b', y, List.mem_cons_of_mem x hy, hError⟩

end Fold

end SoftError

import SoftError.Diagram.Basic

/-!
# Choosing a satisfying assignment

The variables of a diagram that is built by the connectives ascend along every path. A path to a
leaf is then an assignment: no variable on it is met twice. Which of the satisfying assignments
is chosen does not matter. One way is to take the low branch wherever it can be satisfied.
-/

namespace SoftError.Diagram

/-- The variables ascend along every path, and none is below the bound. -/
def Ordered : Diagram → Nat → Prop
  | leaf _, _ => True
  | node v low high, n => n ≤ v ∧ low.Ordered (v + 1) ∧ high.Ordered (v + 1)

/-- A way to choose a satisfying assignment of a diagram. -/
structure Chooser where
  choose? : Diagram → Option Assignment
  sound : ∀ {f : Diagram} {ρ : Assignment}, f.Ordered 0 → choose? f = some ρ → f.eval ρ = true
  complete : ∀ {f : Diagram}, f.Ordered 0 → choose? f = none → ∀ ρ, f.eval ρ = false

variable {f : Diagram} {n : Nat}

theorem Ordered.eval_congr (h : f.Ordered n) {ρ ρ' : Assignment} (hEq : ∀ v, n ≤ v → ρ v = ρ' v) :
    f.eval ρ = f.eval ρ' := by
  induction f generalizing n with
  | leaf b => rfl
  | node v low high ihLow ihHigh =>
    have hLater : ∀ w, v + 1 ≤ w → ρ w = ρ' w := fun w hw =>
      hEq w (Nat.le_trans h.1 (Nat.le_of_succ_le hw))
    rw [eval, eval, hEq v h.1, ihLow h.2.1 hLater, ihHigh h.2.2 hLater]

/-- The assignment that sets the given variables only. -/
def setting (vs : List Nat) : Assignment := fun v => decide (v ∈ vs)

theorem Ordered.eval_witness {vs : List Nat} (h : f.Ordered n) (hWitness : f.witness? = some vs) :
    f.eval (setting vs) = true ∧ ∀ v ∈ vs, n ≤ v := by
  induction f generalizing n vs with
  | leaf b =>
    cases b with
    | false => cases hWitness
    | true =>
      cases hWitness
      exact ⟨rfl, List.forall_mem_nil _⟩
  | node v low high ihLow ihHigh =>
    obtain ⟨hv, hLow, hHigh⟩ := h
    rw [witness?] at hWitness
    cases hFirst : low.witness? with
    | some ws =>
      rw [hFirst] at hWitness
      cases hWitness
      obtain ⟨hEval, hBound⟩ := ihLow hLow hFirst
      -- the variables of the branch are greater, so the witness leaves `v` clear
      have hClear : setting vs v = false := decide_eq_false fun hMem =>
        Nat.not_succ_le_self v (hBound v hMem)
      refine ⟨?_, fun w hw => Nat.le_trans hv (Nat.le_of_succ_le (hBound w hw))⟩
      rw [eval, hClear, if_neg Bool.false_ne_true, hEval]
    | none =>
      rw [hFirst] at hWitness
      obtain ⟨ws, hSecond, rfl⟩ := Option.map_eq_some_iff.mp hWitness
      obtain ⟨hEval, hBound⟩ := ihHigh hHigh hSecond
      have hSet : setting (v :: ws) v = true := decide_eq_true List.mem_cons_self
      have hLater : ∀ w, v + 1 ≤ w → setting (v :: ws) w = setting ws w := by
        intro w hw
        refine decide_eq_decide.mpr ⟨fun hMem => ?_, List.mem_cons_of_mem v⟩
        exact (List.mem_cons.mp hMem).resolve_left (Nat.ne_of_gt hw)
      constructor
      · rw [eval, hSet, if_pos rfl, hHigh.eval_congr hLater, hEval]
      · exact List.forall_mem_cons.mpr
          ⟨hv, fun w hw => Nat.le_trans hv (Nat.le_of_succ_le (hBound w hw))⟩

theorem eval_eq_false_of_witness? (h : f.witness? = none) (ρ : Assignment) :
    f.eval ρ = false := by
  induction f with
  | leaf b =>
    cases b with
    | false => rfl
    | true => cases h
  | node v low high ihLow ihHigh =>
    rw [witness?] at h
    cases hLow : low.witness? with
    | some vs =>
      rw [hLow] at h
      cases h
    | none =>
      rw [hLow] at h
      rw [eval, ihLow hLow, ihHigh (Option.map_eq_none_iff.mp h), ite_self]

/-- The low branch is taken wherever it can be satisfied. -/
def Chooser.lowFirst : Chooser where
  choose? f := f.witness?.map setting
  sound hOrdered hChoose := by
    obtain ⟨vs, hWitness, rfl⟩ := Option.map_eq_some_iff.mp hChoose
    exact (hOrdered.eval_witness hWitness).1
  complete _ hChoose := eval_eq_false_of_witness? (Option.map_eq_none_iff.mp hChoose)

end SoftError.Diagram

import Mathlib.Logic.Function.Basic
import SoftError.Proofs.Diagram.Ordered

/-!
# Reduced diagrams

No node of a diagram that is built by the connectives has equal branches. Such a diagram is
constant only if it is a leaf, so one look decides whether it is satisfiable.
-/

namespace SoftError.Diagram

/-- No node has equal branches. -/
def Reduced : Diagram → Prop
  | leaf _ => True
  | node _ low high => low ≠ high ∧ low.Reduced ∧ high.Reduced

variable {f g low high : Diagram} {n v : Nat}

theorem reduced_branch (v : Nat) (hLow : low.Reduced) (hHigh : high.Reduced) :
    (branch v low high).Reduced := by
  rw [branch]
  split
  · exact hLow
  · rename_i hNe
    exact ⟨hNe, hLow, hHigh⟩

theorem complement_complement (f : Diagram) : f.complement.complement = f := by
  induction f with
  | leaf b => simp [complement]
  | node v low high ihLow ihHigh => simp [complement, ihLow, ihHigh]

theorem Reduced.complement (h : f.Reduced) : f.complement.Reduced := by
  induction f with
  | leaf b => trivial
  | node v low high ihLow ihHigh =>
    refine ⟨fun hEq => h.1 ?_, ihLow h.2.1, ihHigh h.2.2⟩
    rw [← complement_complement low, hEq, complement_complement]

theorem Reduced.relabel (h : f.Reduced) (p : Bool → Bool) : (f.relabel p).Reduced := by
  rw [Diagram.relabel]
  split
  · exact h
  · exact h.complement
  · trivial

theorem Reduced.combine (op : Bool → Bool → Bool) (hf : f.Reduced) (hg : g.Reduced) :
    (combine op f g).Reduced := by
  fun_induction Diagram.combine op f g with
  | case1 a g => exact hg.relabel (op a)
  | case2 v low high b => exact hf.relabel (op · b)
  | case3 v low high w low' high' _ ihLow ihHigh =>
    exact reduced_branch v (ihLow hf.2.1 hg) (ihHigh hf.2.2 hg)
  | case4 v low high w low' high' _ _ ihLow ihHigh =>
    exact reduced_branch w (ihLow hf hg.2.1) (ihHigh hf hg.2.2)
  | case5 v low high w low' high' _ _ ihLow ihHigh =>
    exact reduced_branch v (ihLow hf.2.1 hg.2.1) (ihHigh hf.2.2 hg.2.2)

/-- A branch may be taken without a change of its value. -/
theorem exists_eval_node (hOrdered : (node v low high).Ordered n) (x b : Bool)
    (h : ∃ ρ, (if x then high else low).eval ρ = b) : ∃ ρ, (node v low high).eval ρ = b := by
  obtain ⟨ρ, hρ⟩ := h
  have hLater : ∀ w, v + 1 ≤ w → Function.update ρ v x w = ρ w := fun w hw =>
    Function.update_of_ne (by omega) x ρ
  refine ⟨Function.update ρ v x, ?_⟩
  rw [eval, Function.update_self]
  cases x with
  | false => exact (hOrdered.2.1.eval_congr hLater).trans hρ
  | true => exact (hOrdered.2.2.eval_congr hLater).trans hρ

theorem Reduced.eq_leaf_or (hOrdered : f.Ordered n) (hReduced : f.Reduced) :
    (∃ b, f = leaf b) ∨ ∀ b, ∃ ρ, f.eval ρ = b := by
  induction f generalizing n with
  | leaf b => exact .inl ⟨b, rfl⟩
  | node v low high ihLow ihHigh =>
    right
    intro b
    rcases ihLow hOrdered.2.1 hReduced.2.1 with ⟨a, rfl⟩ | hLow
    · rcases ihHigh hOrdered.2.2 hReduced.2.2 with ⟨a', rfl⟩ | hHigh
      · have hNe : a ≠ a' := fun hEq => hReduced.1 (congrArg leaf hEq)
        refine exists_eval_node hOrdered (a' == b) b ⟨fun _ => false, ?_⟩
        cases a <;> cases a' <;> cases b <;> simp_all [eval]
      · exact exists_eval_node hOrdered true b (hHigh b)
    · exact exists_eval_node hOrdered false b (hLow b)

/-- What the connectives build. -/
structure Canonical (f : Diagram) : Prop where
  ordered : f.Ordered 0
  reduced : f.Reduced

theorem canonical_leaf (b : Bool) : (leaf b).Canonical := ⟨trivial, trivial⟩

theorem canonical_ofLit (l : Lit) : (ofLit l).Canonical := by
  refine ⟨⟨Nat.zero_le _, trivial, trivial⟩, fun hEq => ?_, trivial, trivial⟩
  have hValue := leaf.inj hEq
  cases hSign : l.positive <;> simp [hSign] at hValue

theorem Canonical.apply (hf : f.Canonical) (hg : g.Canonical) (op : Bool → Bool → Bool) :
    (apply op f g).Canonical := by
  rw [apply_eq]
  exact ⟨hf.ordered.combine op hg.ordered, hf.reduced.combine op hg.reduced⟩

theorem Canonical.and (hf : f.Canonical) (hg : g.Canonical) : (f.and g).Canonical := hf.apply hg _

theorem Canonical.or (hf : f.Canonical) (hg : g.Canonical) : (f.or g).Canonical := hf.apply hg _

theorem canonical_pairUp {fs : List Diagram} (h : ∀ f ∈ fs, f.Canonical) :
    ∀ f ∈ pairUp fs, f.Canonical := by
  fun_induction pairUp fs with
  | case1 f g rest ih =>
    obtain ⟨hf, hg, hRest⟩ := by simpa only [List.forall_mem_cons] using h
    exact List.forall_mem_cons.mpr ⟨hf.and hg, ih hRest⟩
  | case2 => exact h

theorem canonical_foldl {α : Type} {xs : List α} {step : Diagram → α → Diagram}
    (hStep : ∀ f, ∀ x ∈ xs, f.Canonical → (step f x).Canonical) (hf : f.Canonical) :
    (xs.foldl step f).Canonical :=
  List.foldlRecOn xs step hf fun f hf x hx => hStep f x hx hf

theorem canonical_conjunction {fs : List Diagram} (h : ∀ f ∈ fs, f.Canonical) :
    (conjunction fs).Canonical :=
  canonical_foldl (fun _ g hg hf => hf.and (canonical_pairUp (canonical_pairUp
    (canonical_pairUp h)) g hg)) (canonical_leaf true)

/-- A diagram that is not the leaf `false` is satisfied by some assignment. -/
theorem Canonical.isFalse_eq_false_iff (h : f.Canonical) :
    f.isFalse = false ↔ ∃ ρ, f.eval ρ = true := by
  rw [isFalse, decide_eq_false_iff_not]
  constructor
  · intro hNe
    rcases h.reduced.eq_leaf_or h.ordered with ⟨b, rfl⟩ | hBoth
    · cases b with
      | false => exact absurd rfl hNe
      | true => exact ⟨fun _ => false, rfl⟩
    · exact hBoth true
  · rintro ⟨ρ, hρ⟩ rfl
    cases hρ

end SoftError.Diagram

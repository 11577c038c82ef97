import SoftError.Diagram.Chooser
import SoftError.Diagram.Evaluation
import SoftError.Proofs.Circuit.Values

/-!
# Ordered diagrams

The connectives keep diagrams ordered, and evaluating a diagram commutes with them.
-/

namespace SoftError

namespace Diagram

variable {f g low high : Diagram} {n m v : Nat}

theorem Ordered.mono (h : f.Ordered n) (hm : m ≤ n) : f.Ordered m := by
  cases f with
  | leaf b => trivial
  | node v low high => exact ⟨Nat.le_trans hm h.1, h.2⟩

theorem ordered_branch (hv : n ≤ v) (hLow : low.Ordered (v + 1)) (hHigh : high.Ordered (v + 1)) :
    (branch v low high).Ordered n := by
  rw [branch]
  split
  · exact hLow.mono (Nat.le_succ_of_le hv)
  · exact ⟨hv, hLow, hHigh⟩

theorem Ordered.complement (h : f.Ordered n) : f.complement.Ordered n := by
  induction f generalizing n with
  | leaf b => trivial
  | node v low high ihLow ihHigh => exact ⟨h.1, ihLow h.2.1, ihHigh h.2.2⟩

theorem Ordered.relabel (h : f.Ordered n) (p : Bool → Bool) : (f.relabel p).Ordered n := by
  rw [Diagram.relabel]
  split
  · exact h
  · exact h.complement
  · trivial

theorem Ordered.combine (op : Bool → Bool → Bool) (hf : f.Ordered n) (hg : g.Ordered n) :
    (combine op f g).Ordered n := by
  fun_induction Diagram.combine op f g generalizing n with
  | case1 a g => exact hg.relabel (op a)
  | case2 v low high b => exact hf.relabel (op · b)
  | case3 v low high w low' high' hLt ihLow ihHigh =>
    have hRight : (node w low' high').Ordered (v + 1) := ⟨hLt, hg.2⟩
    exact ordered_branch hf.1 (ihLow hf.2.1 hRight) (ihHigh hf.2.2 hRight)
  | case4 v low high w low' high' _ hLt ihLow ihHigh =>
    have hLeft : (node v low high).Ordered (w + 1) := ⟨hLt, hf.2⟩
    exact ordered_branch hg.1 (ihLow hLeft hg.2.1) (ihHigh hLeft hg.2.2)
  | case5 v low high w low' high' hNot hNot' ihLow ihHigh =>
    obtain rfl : v = w := by omega
    exact ordered_branch hf.1 (ihLow hf.2.1 hg.2.1) (ihHigh hf.2.2 hg.2.2)

theorem Ordered.apply (op : Bool → Bool → Bool) (hf : f.Ordered n) (hg : g.Ordered n) :
    (apply op f g).Ordered n := by
  rw [apply_eq]
  exact hf.combine op hg

theorem Ordered.and (hf : f.Ordered n) (hg : g.Ordered n) : (f.and g).Ordered n := hf.apply _ hg

theorem Ordered.or (hf : f.Ordered n) (hg : g.Ordered n) : (f.or g).Ordered n := hf.apply _ hg

theorem Ordered.xor (hf : f.Ordered n) (hg : g.Ordered n) : (f.xor g).Ordered n := hf.apply _ hg

theorem Ordered.not (hf : f.Ordered n) : f.not.Ordered n := hf.apply _ trivial

theorem ordered_ofVar (v : Nat) : (ofVar v).Ordered 0 := ⟨Nat.zero_le v, trivial, trivial⟩

end Diagram

theorem evaluation_eval (ρ : Assignment) : GateEvaluation (Diagram.eval ρ) :=
  ⟨⟨fun _ => rfl, Diagram.eval_not ρ⟩, Diagram.eval_and ρ⟩

end SoftError

import Mathlib.Data.List.Nodup
import Mathlib.Data.List.Perm.Subperm
import Mathlib.Logic.Relation
import SoftError.Circuit.WellFormed
import SoftError.Proofs.Outcome

/-!
# Cycles of gates

The search for an order of evaluation fails exactly if some gate depends on itself, and then it
names such a gate: the gates on its path depend on the one at hand. Gates that are already in
order stay as they are.
-/

namespace SoftError

/-- The output of `d` is a fanin of `g`. -/
def Gate.Reads (g d : Gate) : Prop := g.left.var = d.var ∨ g.right.var = d.var

namespace Netlist

variable {gates order : List Gate} {path : List Nat} {depth : Nat} {g d : Gate} {e : CircuitError}

def DependsOn (gates : List Gate) (g d : Gate) : Prop := g ∈ gates ∧ d ∈ gates ∧ g.Reads d

/-- The gate depends on itself. -/
def OnCycle (gates : List Gate) (g : Gate) : Prop := Relation.TransGen (DependsOn gates) g g

def Acyclic (gates : List Gate) : Prop := ∀ g, ¬ OnCycle gates g

theorem mem_of_transGen (h : Relation.TransGen (DependsOn gates) g d) : g ∈ gates := by
  obtain ⟨_, ⟨hg, _⟩, _⟩ := Relation.TransGen.head'_iff.mp h
  exact hg

theorem Acyclic.congr (h : Acyclic gates) (hMem : ∀ g, g ∈ order ↔ g ∈ gates) :
    Acyclic order := by
  intro g hCycle
  refine h g (Relation.TransGen.mono (fun a b hab => ?_) g g hCycle)
  exact ⟨(hMem a).mp hab.1, (hMem b).mp hab.2.1, hab.2.2⟩

theorem var_of_gateOf? {v : Nat} (h : gateOf? gates v = some d) : d.var = v := by
  simpa using List.find?_some h

section Failure

theorem visitDriver_eq_error {visit : List Gate → Gate → Except CircuitError (List Gate)}
    {s : Signal} (h : visitDriver visit gates order s = .error e) :
    ∃ d, gateOf? gates s.var = some d ∧ visit order d = .error e := by
  unfold visitDriver at h
  split at h
  · cases h
  · rename_i d hd
    exact ⟨d, hd, h⟩

/-- A visit goes on with a fanin, and fails if that fails. -/
theorem exists_of_visit_eq_error (hNew : g ∉ order) (hPath : g.var ∉ path)
    (h : visit gates (depth + 1) path order g = .error e) :
    ∃ d order', d ∈ gates ∧ g.Reads d ∧ visit gates depth (g.var :: path) order' d = .error e := by
  rw [visit, if_neg hNew, if_neg hPath] at h
  cases hRight : visitDriver (visit gates depth (g.var :: path)) gates order g.right with
  | error e' =>
    obtain ⟨d, hd, hVisit⟩ := visitDriver_eq_error hRight
    rw [hRight] at h
    cases h
    exact ⟨d, order, mem_of_gateOf? hd, .inr (var_of_gateOf? hd).symm, hVisit⟩
  | ok order₁ =>
    cases hLeft : visitDriver (visit gates depth (g.var :: path)) gates order₁ g.left with
    | error e' =>
      obtain ⟨d, hd, hVisit⟩ := visitDriver_eq_error hLeft
      simp only [hRight, hLeft, bind, Except.bind] at h
      cases h
      exact ⟨d, order₁, mem_of_gateOf? hd, .inl (var_of_gateOf? hd).symm, hVisit⟩
    | ok order₂ => simp [hRight, hLeft, bind, Except.bind, pure, Except.pure] at h

/-- A visit that fails has come back to a gate on its path. The path holds gates that depend on
the one at hand, and there are too few of them to use up the depth. -/
theorem visit_eq_error (hDistinct : (gates.map Gate.var).Nodup) (hMem : g ∈ gates)
    (hPath : path.Nodup)
    (hReach : ∀ v ∈ path, ∃ d, d.var = v ∧ Relation.TransGen (DependsOn gates) d g)
    (hDepth : gates.length < depth + path.length)
    (h : visit gates depth path order g = .error e) :
    ∃ d, e = .combinationalCycle d.out ∧ OnCycle gates d := by
  induction depth generalizing path order g with
  | zero =>
    -- a path without repetition is no longer than the list of gates
    have hSubset : path ⊆ gates.map Gate.var := by
      intro v hv
      obtain ⟨d, rfl, hReads⟩ := hReach v hv
      exact List.mem_map_of_mem (mem_of_transGen hReads)
    have hLength := (List.subperm_of_subset hPath hSubset).length_le
    rw [List.length_map] at hLength
    omega
  | succ depth ih =>
    by_cases hOrder : g ∈ order
    · rw [visit, if_pos hOrder] at h
      cases h
    · by_cases hAgain : g.var ∈ path
      · rw [visit, if_neg hOrder, if_pos hAgain] at h
        cases h
        obtain ⟨d, hd, hReads⟩ := hReach _ hAgain
        obtain rfl : d = g :=
          List.inj_on_of_nodup_map hDistinct (mem_of_transGen hReads) hMem hd
        exact ⟨d, rfl, hReads⟩
      · obtain ⟨d, order', hd, hReads, hVisit⟩ := exists_of_visit_eq_error hOrder hAgain h
        have hStep : DependsOn gates g d := ⟨hMem, hd, hReads⟩
        refine ih hd (List.nodup_cons.mpr ⟨hAgain, hPath⟩) (fun v hv => ?_) ?_ hVisit
        · rcases List.mem_cons.mp hv with rfl | hv
          · exact ⟨g, rfl, .single hStep⟩
          · obtain ⟨d', hd', hBefore⟩ := hReach v hv
            exact ⟨d', hd', hBefore.tail hStep⟩
        · rw [List.length_cons]
          omega

theorem evaluationOrder_eq_error (hDistinct : (gates.map Gate.var).Nodup)
    (h : evaluationOrder gates = .error e) :
    ∃ d, e = .combinationalCycle d.out ∧ OnCycle gates d := by
  obtain ⟨order, g, hg, hVisit⟩ := exists_of_foldlM_eq_error h
  exact visit_eq_error hDistinct hg List.nodup_nil (by simp) (by simp) hVisit

end Failure

section Sorted

theorem Sorted.lt_of_reads (hSorted : Sorted gates) {i j : Nat} (hg : gates[i]? = some g)
    (hd : gates[j]? = some d) (hReads : g.Reads d) : j < i := by
  induction gates generalizing i j with
  | nil => cases hg
  | cons x gates ih =>
    obtain ⟨hFirst, hRest⟩ := hSorted
    cases i with
    | zero =>
      obtain rfl : x = g := Option.some.inj hg
      obtain ⟨hLeft, hRight⟩ := hFirst d (List.mem_of_getElem? hd)
      exact absurd hReads (not_or.mpr ⟨hLeft, hRight⟩)
    | succ i =>
      cases j with
      | zero => omega
      | succ j => exact Nat.succ_lt_succ (ih hRest hg hd)

theorem Sorted.lt_of_transGen (hSorted : Sorted gates)
    (h : Relation.TransGen (DependsOn gates) g d) {i j : Nat} (hg : gates[i]? = some g)
    (hd : gates[j]? = some d) : j < i := by
  induction h generalizing j with
  | single hStep => exact hSorted.lt_of_reads hg hd hStep.2.2
  | tail _ hStep ih =>
    obtain ⟨k, hk⟩ := List.mem_iff_getElem?.mp hStep.1
    exact Nat.lt_trans (hSorted.lt_of_reads hk hd hStep.2.2) (ih hk)

theorem Sorted.acyclic (hSorted : Sorted gates) : Acyclic gates := by
  intro g hCycle
  obtain ⟨i, hi⟩ := List.mem_iff_getElem?.mp (mem_of_transGen hCycle)
  exact Nat.lt_irrefl i (hSorted.lt_of_transGen hCycle hi hi)

theorem Sorted.of_append {rest : List Gate} (h : Sorted (order ++ rest)) : Sorted rest := by
  induction order with
  | nil => exact h
  | cons x order ih => exact ih h.2

/-- The fanins of the next gate have been listed before. -/
theorem visit_of_sorted {rest : List Gate} (hDistinct : (gates.map Gate.var).Nodup)
    (hSorted : Sorted gates) (hGates : gates = order ++ g :: rest) :
    visit gates (gates.length + 1) [] order g = .ok (order ++ [g]) := by
  have hNew : g ∉ order := by
    rw [hGates] at hDistinct
    have hDisjoint := (List.nodup_append.mp hDistinct.of_map).2.2
    exact fun hg => hDisjoint g hg g List.mem_cons_self rfl
  have hDriver : ∀ s, s = g.left ∨ s = g.right →
      visitDriver (visit gates gates.length [g.var]) gates order s = .ok order := by
    intro s hs
    unfold visitDriver
    split
    · rfl
    · rename_i d hd
      have hVar := var_of_gateOf? hd
      have hListed : d ∈ order := by
        have hMem := mem_of_gateOf? hd
        rw [hGates] at hMem hSorted
        refine (List.mem_append.mp hMem).resolve_right fun hLater => ?_
        obtain ⟨hLeft, hRight⟩ := hSorted.of_append.1 d hLater
        rcases hs with rfl | rfl
        · exact hLeft hVar.symm
        · exact hRight hVar.symm
      obtain ⟨n, hn⟩ : ∃ n, gates.length = n + 1 :=
        Nat.exists_eq_add_one_of_ne_zero (by rw [hGates]; simp)
      rw [hn, visit, if_pos hListed]
  rw [visit, if_neg hNew, if_neg List.not_mem_nil, hDriver _ (.inr rfl)]
  simp only [bind, Except.bind, hDriver _ (.inl rfl)]
  rfl

theorem evaluationOrder_of_sorted (hDistinct : (gates.map Gate.var).Nodup)
    (hSorted : Sorted gates) : evaluationOrder gates = .ok gates := by
  have hFold : ∀ rest order : List Gate, gates = order ++ rest →
      rest.foldlM (visit gates (gates.length + 1) []) order = .ok gates := by
    intro rest
    induction rest with
    | nil =>
      intro order hGates
      rw [hGates, List.append_nil]
      rfl
    | cons g rest ih =>
      intro order hGates
      rw [List.foldlM_cons, visit_of_sorted hDistinct hSorted hGates]
      exact ih (order ++ [g]) (by rw [hGates, List.append_assoc, List.singleton_append])
  exact hFold gates [] rfl

end Sorted

end Netlist

end SoftError

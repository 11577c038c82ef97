import SoftError.Proofs.Circuit.Order
import SoftError.Proofs.Circuit.Settled

/-!
# Which netlists are circuits

A netlist is accepted exactly if each variable is defined at most once and within range, only
defined variables are used and no gate depends on itself. The circuit differs from it in the
order of the gates only, and being in order it is accepted as it is.
-/

namespace SoftError

/-- What makes a netlist a circuit, whatever the order of its gates. -/
structure Netlist.Admissible (n : Netlist) : Prop where
  maxVar_le : n.maxVar ≤ Netlist.variableBound
  plain : ∀ s ∈ n.definitions, s.negated = false
  var_range : ∀ s ∈ n.definitions, 1 ≤ s.var ∧ s.var ≤ n.maxVar
  distinct : (n.definitions.map Signal.var).Nodup
  defined : ∀ s ∈ n.uses, s.var = 0 ∨ s.var ∈ n.definitions.map Signal.var
  acyclic : Netlist.Acyclic n.gates

namespace Netlist

variable {n m : Netlist} {maxVar : Nat} {defined : List Nat} {ss : List Signal} {s : Signal}

theorem checkDefinition_of (hPlain : s.negated = false) (hRange : 1 ≤ s.var ∧ s.var ≤ maxVar)
    (hNew : s.var ∉ defined) : checkDefinition maxVar defined s = .ok (s.var :: defined) := by
  have hZero : s.var ≠ 0 := by omega
  have hMax : ¬ maxVar < s.var := by omega
  simp [checkDefinition, hPlain, hZero, hMax, hNew]

theorem exists_foldlM_checkDefinition (defined : List Nat)
    (hPlain : ∀ s ∈ ss, s.negated = false)
    (hRange : ∀ s ∈ ss, 1 ≤ s.var ∧ s.var ≤ maxVar) (hDistinct : (ss.map Signal.var).Nodup)
    (hNew : ∀ s ∈ ss, s.var ∉ defined) :
    ∃ defined', ss.foldlM (checkDefinition maxVar) defined = .ok defined' := by
  induction ss generalizing defined with
  | nil => exact ⟨defined, rfl⟩
  | cons s ss ih =>
    obtain ⟨hsPlain, hPlain⟩ := List.forall_mem_cons.mp hPlain
    obtain ⟨hsRange, hRange⟩ := List.forall_mem_cons.mp hRange
    obtain ⟨hsNew, hNew⟩ := List.forall_mem_cons.mp hNew
    rw [List.map_cons, List.nodup_cons] at hDistinct
    rw [List.foldlM_cons, checkDefinition_of hsPlain hsRange hsNew]
    refine ih _ hPlain hRange hDistinct.2 fun t ht => ?_
    rw [List.mem_cons, not_or]
    exact ⟨fun hEq => hDistinct.1 (hEq ▸ List.mem_map_of_mem ht), hNew t ht⟩

theorem forM_checkUse (h : ∀ s ∈ ss, s.var = 0 ∨ s.var ∈ defined) :
    ss.forM (checkUse defined) = .ok () := by
  induction ss with
  | nil => rfl
  | cons s ss ih =>
    obtain ⟨hs, h⟩ := List.forall_mem_cons.mp h
    have hUse : checkUse defined s = .ok () := by
      rw [checkUse, if_neg]
      tauto
    simp only [List.forM, hUse, bind, Except.bind, ih h]

theorem check_of_evaluationOrder {order : List Gate} (hBound : n.maxVar ≤ variableBound)
    (hPlain : ∀ s ∈ n.definitions, s.negated = false)
    (hRange : ∀ s ∈ n.definitions, 1 ≤ s.var ∧ s.var ≤ n.maxVar)
    (hDistinct : (n.definitions.map Signal.var).Nodup)
    (hUses : ∀ s ∈ n.uses, s.var = 0 ∨ s.var ∈ n.definitions.map Signal.var)
    (hOrder : evaluationOrder n.gates = .ok order) : n.check = .ok { n with gates := order } := by
  obtain ⟨defined, hDefs⟩ := exists_foldlM_checkDefinition [] hPlain hRange hDistinct (by simp)
  have hDefined := (foldlM_checkDefinition_eq_ok hDefs).2.2
  have hChecked : n.uses.forM (checkUse defined) = .ok () :=
    forM_checkUse fun s hs => (hUses s hs).imp_right fun hv => (hDefined _).mpr (.inr hv)
  have hSorted := (sortGates_eq (gates_nodup_of_definitions hDistinct)).trans hOrder
  simp [check, Nat.not_lt.mpr hBound, hDefs, hChecked, hSorted, bind, Except.bind, pure,
    Except.pure]

theorem Admissible.check (h : n.Admissible) :
    ∃ order, n.check = .ok { n with gates := order } := by
  cases hOrder : evaluationOrder n.gates with
  | ok order =>
    exact ⟨order, check_of_evaluationOrder h.maxVar_le h.plain h.var_range h.distinct h.defined
      hOrder⟩
  | error e =>
    obtain ⟨d, _, hCycle⟩ :=
      evaluationOrder_eq_error (gates_nodup_of_definitions h.distinct) hOrder
    exact absurd hCycle (h.acyclic d)

theorem perm_gates_of_check (h : n.check = .ok m) : m.gates.Perm n.gates := by
  obtain ⟨defined, order, _, hDefs, _, hOrder, rfl⟩ := check_eq_ok h
  have hGates := gates_nodup_of_definitions (foldlM_checkDefinition_eq_ok hDefs).2.1
  exact perm_of_evaluationOrder hGates.of_map hOrder

theorem admissible_of_check (h : n.check = .ok m) : n.Admissible := by
  have hSorted := (wellFormed_of_check h).sorted
  have hPerm := perm_gates_of_check h
  obtain ⟨defined, order, hBound, hDefs, hUses, _, rfl⟩ := check_eq_ok h
  obtain ⟨hAll, hDistinct, hDefined⟩ := foldlM_checkDefinition_eq_ok hDefs
  refine ⟨hBound, fun s hs => (hAll s hs).1, fun s hs => ?_, hDistinct, fun s hs => ?_, ?_⟩
  · obtain ⟨_, hZero, hMax, _⟩ := hAll s hs
    omega
  · refine (forM_checkUse_eq_ok hUses s hs).imp_right fun hv => ?_
    exact ((hDefined _).mp hv).resolve_left List.not_mem_nil
  · exact hSorted.acyclic.congr fun g => hPerm.symm.mem_iff

theorem checkDefinition_ne_cycle {t : Signal} :
    checkDefinition maxVar defined s ≠ .error (.combinationalCycle t) := by
  unfold checkDefinition
  repeat' split
  all_goals simp

theorem forM_checkUse_ne_cycle {t : Signal} :
    ss.forM (checkUse defined) ≠ .error (.combinationalCycle t) := by
  induction ss with
  | nil => simp [pure, Except.pure]
  | cons s ss ih =>
    by_cases hUse : s.var ≠ 0 ∧ s.var ∉ defined
    · simp [List.forM, checkUse, hUse, bind, Except.bind]
    · simpa [List.forM, checkUse, hUse, bind, Except.bind] using ih

/-- Only the last check reports a cycle, when the definitions are known to be distinct. -/
theorem onCycle_of_check (h : n.check = .error (.combinationalCycle s)) :
    ∃ g, g.out = s ∧ OnCycle n.gates g := by
  simp only [check, bind, Except.bind, pure, Except.pure] at h
  split at h
  · cases h
  · cases hDefs : n.definitions.foldlM (checkDefinition n.maxVar) [] with
    | error e =>
      obtain ⟨_, _, _, hCheck⟩ := exists_of_foldlM_eq_error hDefs
      simp only [hDefs, Except.error.injEq] at h
      exact absurd (h ▸ hCheck) checkDefinition_ne_cycle
    | ok defined =>
      cases hUses : n.uses.forM (checkUse defined) with
      | error e =>
        simp only [hDefs, hUses, Except.error.injEq] at h
        exact absurd (h ▸ hUses) forM_checkUse_ne_cycle
      | ok =>
        have hGates := gates_nodup_of_definitions (foldlM_checkDefinition_eq_ok hDefs).2.1
        cases hOrder : evaluationOrder n.gates with
        | error e =>
          obtain ⟨d, rfl, hCycle⟩ := evaluationOrder_eq_error hGates hOrder
          simp only [hDefs, hUses, sortGates_eq hGates, hOrder, Except.error.injEq,
            CircuitError.combinationalCycle.injEq] at h
          exact ⟨d, h, hCycle⟩
        | ok order => simp [hDefs, hUses, sortGates_eq hGates, hOrder] at h

end Netlist

namespace Circuit

variable {n : Netlist} {c : Circuit}

theorem ofNetlist_eq_ok_iff : ofNetlist n = .ok c ↔ n.check = .ok c.toNetlist := by
  unfold ofNetlist
  split
  · rename_i e hCheck
    simp [hCheck]
  · rename_i m hCheck
    obtain ⟨m', hWellFormed⟩ := c
    simp [hCheck]

theorem ofNetlist_eq_error_iff {e : CircuitError} :
    ofNetlist n = .error e ↔ n.check = .error e := by
  unfold ofNetlist
  split
  · rename_i e' hCheck
    simp [hCheck]
  · rename_i m hCheck
    simp [hCheck]

/-- A circuit is accepted as it is. -/
theorem ofNetlist_toNetlist (c : Circuit) : ofNetlist c.toNetlist = .ok c := by
  have hWell := c.wellFormed
  have hOrder := Netlist.evaluationOrder_of_sorted c.gates_nodup hWell.sorted
  rw [ofNetlist_eq_ok_iff]
  refine Netlist.check_of_evaluationOrder hWell.maxVar_le hWell.plain (fun s hs => ?_)
    hWell.distinct hWell.defined hOrder
  exact ⟨Nat.one_le_iff_ne_zero.mpr (hWell.var_ne_zero s hs), hWell.var_le s hs⟩

/-- A netlist is accepted exactly if it is admissible. Then its gates are put in order, and
nothing else is changed. A cycle is reported at a gate that lies on one. -/
theorem ofNetlist_accepts (n : Netlist) :
    ((∃ c, ofNetlist n = .ok c) ↔ n.Admissible) ∧
    (∀ c, ofNetlist n = .ok c →
      c.toNetlist = { n with gates := c.gates } ∧ c.gates.Perm n.gates ∧
      (∀ (i j : Nat) (g d : Gate), c.gates[i]? = some g → c.gates[j]? = some d → g.Reads d →
        j < i) ∧
      ofNetlist c.toNetlist = .ok c) ∧
    ∀ s, ofNetlist n = .error (.combinationalCycle s) →
      ∃ g ∈ n.gates, g.out = s ∧ Netlist.OnCycle n.gates g := by
  refine ⟨⟨?_, ?_⟩, ?_, ?_⟩
  · rintro ⟨c, hc⟩
    exact Netlist.admissible_of_check (ofNetlist_eq_ok_iff.mp hc)
  · intro hAdmissible
    obtain ⟨order, hCheck⟩ := hAdmissible.check
    exact ⟨⟨_, Netlist.wellFormed_of_check hCheck⟩, ofNetlist_eq_ok_iff.mpr hCheck⟩
  · intro c hc
    have hCheck := ofNetlist_eq_ok_iff.mp hc
    obtain ⟨_, order, _, _, _, _, hNetlist⟩ := Netlist.check_eq_ok hCheck
    refine ⟨?_, Netlist.perm_gates_of_check hCheck, ?_, ofNetlist_toNetlist c⟩
    · rw [hNetlist]
    · intro i j g d hg hd hReads
      exact c.wellFormed.sorted.lt_of_reads hg hd hReads
  · intro s hs
    obtain ⟨g, hg, hCycle⟩ := Netlist.onCycle_of_check (ofNetlist_eq_error_iff.mp hs)
    exact ⟨g, Netlist.mem_of_transGen hCycle, hg, hCycle⟩

/-- The gates are listed in the wrong order, and the first one reads the other one twice. -/
def swappedGates : Netlist where
  maxVar := 4
  inputs := [⟨2⟩, ⟨4⟩]
  latches := []
  outputs := [⟨8⟩]
  gates := [⟨⟨8⟩, ⟨6⟩, ⟨7⟩⟩, ⟨⟨6⟩, ⟨4⟩, ⟨2⟩⟩]

/-- Two gates that read each other. -/
def loopedGates : Netlist where
  maxVar := 2
  inputs := []
  latches := []
  outputs := [⟨2⟩]
  gates := [⟨⟨2⟩, ⟨4⟩, ⟨4⟩⟩, ⟨⟨4⟩, ⟨2⟩, ⟨2⟩⟩]

theorem swappedGates_accepted :
    (∃ c, ofNetlist swappedGates = .ok c ∧ c.gates = [⟨⟨6⟩, ⟨4⟩, ⟨2⟩⟩, ⟨⟨8⟩, ⟨6⟩, ⟨7⟩⟩] ∧
      ofNetlist c.toNetlist = .ok c) ∧ swappedGates.Admissible ∧
    ofNetlist loopedGates = .error (.combinationalCycle ⟨2⟩) ∧
    ∃ g ∈ loopedGates.gates, g.out = ⟨2⟩ ∧ Netlist.OnCycle loopedGates.gates g := by
  have hCheck : swappedGates.check = .ok
      { swappedGates with gates := [⟨⟨6⟩, ⟨4⟩, ⟨2⟩⟩, ⟨⟨8⟩, ⟨6⟩, ⟨7⟩⟩] } := by
    decide +kernel
  have hOk : ofNetlist swappedGates = .ok ⟨_, Netlist.wellFormed_of_check hCheck⟩ :=
    ofNetlist_eq_ok_iff.mpr hCheck
  have hError : ofNetlist loopedGates = .error (.combinationalCycle ⟨2⟩) :=
    ofNetlist_eq_error_iff.mpr (by decide +kernel)
  obtain ⟨hAdmissible, hOrdered, -⟩ := ofNetlist_accepts swappedGates
  exact ⟨⟨_, hOk, rfl, (hOrdered _ hOk).2.2.2⟩, hAdmissible.mp ⟨_, hOk⟩, hError,
    (ofNetlist_accepts loopedGates).2.2 _ hError⟩

end Circuit

end SoftError

import SoftError.Circuit.Traversal

/-!
# Well-formed circuits

A circuit defines each variable once, by a plain signal within its variable range, uses
only defined variables, and lists its gates in order of evaluation. Checking a netlist
sorts its gates and yields a circuit exactly if there is one.
-/

namespace SoftError.Netlist

/-- No gate reads itself or a later gate. -/
def Sorted : List Gate → Prop
  | [] => True
  | g :: rest => (∀ d ∈ g :: rest, g.left.var ≠ d.var ∧ g.right.var ≠ d.var) ∧ Sorted rest

structure WellFormed (n : Netlist) : Prop where
  maxVar_le : n.maxVar ≤ variableBound
  plain : ∀ s ∈ n.definitions, s.negated = false
  var_ne_zero : ∀ s ∈ n.definitions, s.var ≠ 0
  var_le : ∀ s ∈ n.definitions, s.var ≤ n.maxVar
  distinct : (n.definitions.map Signal.var).Nodup
  defined : ∀ s ∈ n.uses, s.var = 0 ∨ s.var ∈ n.definitions.map Signal.var
  sorted : Sorted n.gates

def checkDefinition (maxVar : Nat) (defined : List Nat) (s : Signal) :
    Except CircuitError (List Nat) :=
  if s.negated then .error (.negatedDefinition s)
  else if s.var = 0 then .error .constantRedefined
  else if maxVar < s.var then .error (.variableOutOfRange s maxVar)
  else if s.var ∈ defined then .error (.duplicateDefinition s)
  else .ok (s.var :: defined)

def checkUse (defined : List Nat) (s : Signal) : Except CircuitError Unit :=
  if s.var ≠ 0 ∧ s.var ∉ defined then .error (.undefinedSignal s) else .ok ()

/-- Checks a netlist and sorts its gates. A range error names the largest signal of the
range asked for, as far as a 64-bit word can tell. -/
def check (n : Netlist) : Except CircuitError Netlist := do
  if variableBound < n.maxVar then
    .error (.variableOutOfRange ⟨min (2 * n.maxVar) ((1 <<< 64) - 1)⟩ variableBound)
  let defined ← n.definitions.foldlM (checkDefinition n.maxVar) []
  n.uses.forM (checkUse defined)
  let order ← sortGates n.gates
  return { n with gates := order }

theorem checkDefinition_eq_ok {maxVar : Nat} {defined defined' : List Nat} {s : Signal}
    (h : checkDefinition maxVar defined s = .ok defined') :
    s.negated = false ∧ s.var ≠ 0 ∧ s.var ≤ maxVar ∧ s.var ∉ defined ∧
      defined' = s.var :: defined := by
  unfold checkDefinition at h
  split at h
  · cases h
  · split at h
    · cases h
    · split at h
      · cases h
      · split at h
        · cases h
        · injection h with h
          simp_all

theorem foldlM_checkDefinition_eq_ok {maxVar : Nat} {ss : List Signal} {defined defined' : List Nat}
    (h : ss.foldlM (checkDefinition maxVar) defined = .ok defined') :
    (∀ s ∈ ss, s.negated = false ∧ s.var ≠ 0 ∧ s.var ≤ maxVar ∧ s.var ∉ defined) ∧
      (ss.map Signal.var).Nodup ∧
      ∀ v, v ∈ defined' ↔ v ∈ defined ∨ v ∈ ss.map Signal.var := by
  induction ss generalizing defined with
  | nil =>
    injection h with h
    subst h
    simp
  | cons s ss ih =>
    rw [List.foldlM_cons] at h
    cases hCheck : checkDefinition maxVar defined s with
    | error e => simp [hCheck, bind, Except.bind] at h
    | ok next =>
      simp only [hCheck, bind, Except.bind] at h
      obtain ⟨hPlain, hZero, hRange, hFresh, rfl⟩ := checkDefinition_eq_ok hCheck
      obtain ⟨hAll, hNodup, hMem⟩ := ih h
      refine ⟨?_, ?_, ?_⟩
      · intro t ht
        rcases List.mem_cons.mp ht with rfl | ht
        · exact ⟨hPlain, hZero, hRange, hFresh⟩
        · obtain ⟨h₁, h₂, h₃, h₄⟩ := hAll t ht
          exact ⟨h₁, h₂, h₃, fun hv => h₄ (List.mem_cons_of_mem _ hv)⟩
      · rw [List.map_cons, List.nodup_cons]
        refine ⟨?_, hNodup⟩
        intro hv
        obtain ⟨t, ht, hEq⟩ := List.mem_map.mp hv
        exact (hAll t ht).2.2.2 (hEq ▸ List.mem_cons_self)
      · intro v
        rw [hMem, List.mem_cons, List.map_cons, List.mem_cons]
        exact ⟨fun h => h.elim (fun h => h.elim (fun h => .inr (.inl h)) .inl) (.inr ∘ .inr),
          fun h => h.elim (.inl ∘ .inr) fun h => h.elim (.inl ∘ .inl) .inr⟩

theorem forM_checkUse_eq_ok {defined : List Nat} {ss : List Signal}
    (h : ss.forM (checkUse defined) = .ok ()) : ∀ s ∈ ss, s.var = 0 ∨ s.var ∈ defined := by
  induction ss with
  | nil => intro s hs; cases hs
  | cons s ss ih =>
    cases hCheck : checkUse defined s with
    | error e => simp [List.forM, hCheck, bind, Except.bind] at h
    | ok u =>
      simp only [List.forM, hCheck, bind, Except.bind] at h
      intro t ht
      rcases List.mem_cons.mp ht with rfl | ht
      · by_cases hVar : t.var = 0
        · exact .inl hVar
        · refine .inr (Decidable.byContradiction fun hUndefined => ?_)
          simp [checkUse, hVar, hUndefined] at hCheck
      · exact ih h t ht

theorem sorted_append_singleton {gates : List Gate} {g : Gate} (hSorted : Sorted gates)
    (hEarlier : ∀ d ∈ gates, d.left.var ≠ g.var ∧ d.right.var ≠ g.var)
    (hSelf : g.left.var ≠ g.var ∧ g.right.var ≠ g.var) : Sorted (gates ++ [g]) := by
  induction gates with
  | nil => exact ⟨by simpa using hSelf, trivial⟩
  | cons d gates ih =>
    obtain ⟨hHead, hTail⟩ := hSorted
    rw [List.cons_append]
    refine ⟨?_, ih hTail fun x hx => hEarlier x (List.mem_cons_of_mem d hx)⟩
    intro x hx
    rw [← List.cons_append] at hx
    rcases List.mem_append.mp hx with hx | hx
    · exact hHead x hx
    · rw [List.mem_singleton] at hx
      exact hx ▸ hEarlier d List.mem_cons_self

theorem Layered.driver_mem {gates order : List Gate} (h : Layered gates order) :
    ∀ g ∈ order, ∀ s, s = g.left ∨ s = g.right →
      ∀ d, gateOf? gates s.var = some d → d ∈ order := by
  induction h with
  | nil => intro g hg; cases hg
  | snoc _ _ _ hDriver ih =>
    intro g hg s hs d hd
    rcases List.mem_append.mp hg with hg | hg
    · exact List.mem_append_left _ (ih g hg s hs d hd)
    · rw [List.mem_singleton] at hg
      subst hg
      exact List.mem_append_left _ (hDriver s hs d hd)

theorem Layered.sorted {gates order : List Gate} (hDistinct : (gates.map Gate.var).Nodup)
    (h : Layered gates order) : Sorted order := by
  induction h with
  | nil => trivial
  | @snoc order g hOrder hMem hNew hDriver ih =>
    have hFound := gateOf?_var hDistinct hMem
    refine sorted_append_singleton ih ?_ ⟨?_, ?_⟩
    · intro d hd
      refine ⟨fun hEq => ?_, fun hEq => ?_⟩
      · exact hNew (hOrder.driver_mem d hd _ (.inl rfl) g (hEq ▸ hFound))
      · exact hNew (hOrder.driver_mem d hd _ (.inr rfl) g (hEq ▸ hFound))
    · exact fun hEq => hNew (hDriver _ (.inl rfl) g (hEq ▸ hFound))
    · exact fun hEq => hNew (hDriver _ (.inr rfl) g (hEq ▸ hFound))

theorem gates_nodup_of_definitions {n : Netlist}
    (h : (n.definitions.map Signal.var).Nodup) : (n.gates.map Gate.var).Nodup := by
  rw [definitions, List.map_append, List.map_map] at h
  exact (List.nodup_append.mp h).2.1

/-- An evaluation order is a rearrangement of the gates. -/
theorem perm_of_evaluationOrder {gates order : List Gate} (hNodup : gates.Nodup)
    (h : evaluationOrder gates = .ok order) : order.Perm gates := by
  obtain ⟨hLayered, hAll⟩ := layered_of_evaluationOrder h
  exact (List.perm_ext_iff_of_nodup hLayered.nodup hNodup).mpr fun g =>
    ⟨hLayered.subset g, hAll g⟩

/-- What a successful check has established. -/
theorem check_eq_ok {n m : Netlist} (h : n.check = .ok m) :
    ∃ defined order, n.maxVar ≤ variableBound ∧
      n.definitions.foldlM (checkDefinition n.maxVar) [] = .ok defined ∧
      n.uses.forM (checkUse defined) = .ok () ∧
      evaluationOrder n.gates = .ok order ∧ m = { n with gates := order } := by
  simp only [check, bind, Except.bind, pure, Except.pure] at h
  split at h
  · cases h
  · rename_i hBound
    cases hDefs : n.definitions.foldlM (checkDefinition n.maxVar) [] with
    | error e => simp [hDefs] at h
    | ok defined =>
      have hGates := gates_nodup_of_definitions (foldlM_checkDefinition_eq_ok hDefs).2.1
      cases hUses : n.uses.forM (checkUse defined) with
      | error e => simp [hDefs, hUses] at h
      | ok u =>
        cases hOrder : evaluationOrder n.gates with
        | error e => simp [hDefs, hUses, sortGates_eq hGates, hOrder] at h
        | ok order =>
          simp only [hDefs, hUses, sortGates_eq hGates, hOrder] at h
          injection h with h
          exact ⟨defined, order, Nat.le_of_not_lt hBound, rfl, hUses, rfl, h.symm⟩

theorem wellFormed_of_check {n m : Netlist} (h : n.check = .ok m) : m.WellFormed := by
  obtain ⟨defined, order, hBound, hDefs, hUses, hOrder, rfl⟩ := check_eq_ok h
  obtain ⟨hAll, hDistinct, hDefined⟩ := foldlM_checkDefinition_eq_ok hDefs
  have hGateVars := gates_nodup_of_definitions hDistinct
  have hGates : n.gates.Nodup :=
    (List.pairwise_map.mp hGateVars).imp fun hNe hEq => hNe (congrArg Gate.var hEq)
  have hPerm := perm_of_evaluationOrder hGates hOrder
  have hDefinitions : ({ n with gates := order } : Netlist).definitions.Perm n.definitions :=
    (hPerm.map Gate.out).append_left _
  have hMem : ∀ s, s ∈ ({ n with gates := order } : Netlist).definitions ↔ s ∈ n.definitions :=
    fun s => hDefinitions.mem_iff
  refine ⟨hBound, ?_, ?_, ?_, ?_, ?_, ?_⟩
  · exact fun s hs => (hAll s ((hMem s).mp hs)).1
  · exact fun s hs => (hAll s ((hMem s).mp hs)).2.1
  · exact fun s hs => (hAll s ((hMem s).mp hs)).2.2.1
  · exact (hDefinitions.map Signal.var).nodup_iff.mpr hDistinct
  · intro s hs
    have hUsed : s ∈ n.uses := by
      rcases List.mem_append.mp hs with hs | hs
      · exact List.mem_append_left _ hs
      · obtain ⟨g, hg, hsg⟩ := List.mem_flatMap.mp hs
        exact List.mem_append_right _ (List.mem_flatMap.mpr ⟨g, hPerm.mem_iff.mp hg, hsg⟩)
    refine (forM_checkUse_eq_ok hUses s hUsed).imp_right fun hv => ?_
    rw [hDefined] at hv
    exact (hDefinitions.map Signal.var).mem_iff.mpr (hv.resolve_left List.not_mem_nil)
  · exact (layered_of_evaluationOrder hOrder).1.sorted hGateVars

end SoftError.Netlist

namespace SoftError

structure Circuit extends Netlist where
  wellFormed : toNetlist.WellFormed
deriving DecidableEq

/-- Checks a netlist and sorts its gates. -/
def Circuit.ofNetlist (n : Netlist) : Except CircuitError Circuit :=
  match h : n.check with
  | .error e => .error e
  | .ok m => .ok ⟨m, Netlist.wellFormed_of_check h⟩

end SoftError

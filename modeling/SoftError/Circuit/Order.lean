import SoftError.Circuit.Basic

/-!
# Gates in order of evaluation

The gates are listed by a depth-first search, so that each one comes after the gates of
its fanins. Latches break cycles: only gates are followed.
-/

namespace SoftError.Netlist

/-- The gate that defines variable `v`. -/
def gateOf? (gates : List Gate) (v : Nat) : Option Gate := gates.find? fun g => g.var = v

/-- Visits the gate that drives a signal, if there is one. -/
def visitDriver (visit : List Gate → Gate → Except CircuitError (List Gate)) (gates : List Gate)
    (order : List Gate) (s : Signal) : Except CircuitError (List Gate) :=
  match gateOf? gates s.var with
  | none => .ok order
  | some g => visit order g

/-- Lists `g` after the gates it depends on, the right fanin first. `path` holds the gates
being visited, and `depth` exceeds the length of every path without repetition. -/
def visit (gates : List Gate) : (depth : Nat) → (path : List Nat) → (order : List Gate) →
    Gate → Except CircuitError (List Gate)
  | 0, _, _, g => .error (.combinationalCycle g.out)
  | depth + 1, path, order, g =>
    if g ∈ order then .ok order
    else if g.var ∈ path then .error (.combinationalCycle g.out)
    else do
      let order ← visitDriver (visit gates depth (g.var :: path)) gates order g.right
      let order ← visitDriver (visit gates depth (g.var :: path)) gates order g.left
      return order ++ [g]

def evaluationOrder (gates : List Gate) : Except CircuitError (List Gate) :=
  gates.foldlM (visit gates (gates.length + 1) []) []

/-- Lists of gates in which each one stands once and after the gates that drive it. -/
inductive Layered (gates : List Gate) : List Gate → Prop where
  | nil : Layered gates []
  | snoc {order : List Gate} {g : Gate} (hOrder : Layered gates order) (hMem : g ∈ gates)
      (hNew : g ∉ order)
      (hDriver : ∀ s, s = g.left ∨ s = g.right → ∀ d, gateOf? gates s.var = some d → d ∈ order) :
      Layered gates (order ++ [g])

/-- `order'` adds gates to `order`, none of them on the path. -/
structure Extends (gates : List Gate) (path : List Nat) (order order' : List Gate) : Prop where
  layered : Layered gates order'
  kept : ∀ g ∈ order, g ∈ order'
  offPath : ∀ g ∈ order', g ∈ order ∨ g.var ∉ path

namespace Extends

variable {gates : List Gate} {path : List Nat} {order order' order'' : List Gate}

theorem refl (h : Layered gates order) : Extends gates path order order :=
  ⟨h, fun _ hg => hg, fun _ hg => .inl hg⟩

theorem trans (h : Extends gates path order order') (h' : Extends gates path order' order'') :
    Extends gates path order order'' where
  layered := h'.layered
  kept g hg := h'.kept g (h.kept g hg)
  offPath g hg := (h'.offPath g hg).elim (h.offPath g) .inr

theorem weaken {v : Nat} (h : Extends gates (v :: path) order order') :
    Extends gates path order order' where
  layered := h.layered
  kept := h.kept
  offPath g hg := (h.offPath g hg).imp_right fun hv hmem => hv (List.mem_cons_of_mem v hmem)

end Extends

theorem mem_of_gateOf? {gates : List Gate} {v : Nat} {g : Gate} (h : gateOf? gates v = some g) :
    g ∈ gates :=
  List.mem_of_find?_eq_some h

/-- A gate is found by its variable. -/
theorem gateOf?_var {gates : List Gate} (hDistinct : (gates.map Gate.var).Nodup) {g : Gate}
    (hMem : g ∈ gates) : gateOf? gates g.var = some g := by
  induction gates with
  | nil => cases hMem
  | cons d gates ih =>
    rw [List.map_cons, List.nodup_cons] at hDistinct
    rcases List.mem_cons.mp hMem with rfl | hMem
    · simp [gateOf?]
    · have hNe : d.var ≠ g.var := fun hEq =>
        hDistinct.1 (hEq ▸ List.mem_map_of_mem hMem)
      rw [gateOf?, List.find?_cons_of_neg (by simpa using hNe)]
      exact ih hDistinct.2 hMem

theorem eq_of_var_eq {gates : List Gate} (hDistinct : (gates.map Gate.var).Nodup) {g d : Gate}
    (hg : g ∈ gates) (hd : d ∈ gates) (h : g.var = d.var) : g = d := by
  have hFound := gateOf?_var hDistinct hg
  rw [h, gateOf?_var hDistinct hd] at hFound
  exact (Option.some.inj hFound).symm

theorem visitDriver_eq_ok {visit : List Gate → Gate → Except CircuitError (List Gate)}
    {gates order order' : List Gate} {path : List Nat} {s : Signal}
    (hVisit : ∀ g ∈ gates, ∀ order', visit order g = .ok order' →
      Extends gates path order order' ∧ g ∈ order')
    (hOrder : Layered gates order) (h : visitDriver visit gates order s = .ok order') :
    Extends gates path order order' ∧ ∀ d, gateOf? gates s.var = some d → d ∈ order' := by
  unfold visitDriver at h
  split at h
  · rename_i hNone
    injection h with h
    subst h
    refine ⟨.refl hOrder, ?_⟩
    intro d hd
    rw [hNone] at hd
    cases hd
  · rename_i g hSome
    obtain ⟨hExtends, hMem⟩ := hVisit g (mem_of_gateOf? hSome) order' h
    refine ⟨hExtends, ?_⟩
    intro d hd
    rw [hSome] at hd
    injection hd with hd
    exact hd ▸ hMem

theorem visit_eq_ok {gates : List Gate} {depth : Nat} {path : List Nat} {order order' : List Gate}
    {g : Gate} (hOrder : Layered gates order) (hMem : g ∈ gates)
    (h : visit gates depth path order g = .ok order') :
    Extends gates path order order' ∧ g ∈ order' := by
  induction depth generalizing path order order' g with
  | zero => cases h
  | succ depth ih =>
    rw [visit] at h
    split at h
    · rename_i hListed
      injection h with h
      subst h
      exact ⟨.refl hOrder, hListed⟩
    · rename_i hNew
      split at h
      · cases h
      · rename_i hPath
        cases hRight : visitDriver (visit gates depth (g.var :: path)) gates order g.right with
        | error e => simp [hRight, bind, Except.bind] at h
        | ok order₁ =>
          cases hLeft : visitDriver (visit gates depth (g.var :: path)) gates order₁ g.left with
          | error e => simp [hRight, hLeft, bind, Except.bind] at h
          | ok order₂ =>
            simp only [hRight, hLeft, bind, Except.bind, pure, Except.pure] at h
            injection h with h
            subst h
            obtain ⟨hFirst, hRightDriver⟩ := visitDriver_eq_ok
              (fun d hd _ h => ih hOrder hd h) hOrder hRight
            obtain ⟨hSecond, hLeftDriver⟩ := visitDriver_eq_ok
              (fun d hd _ h => ih hFirst.layered hd h) hFirst.layered hLeft
            have hBoth := hFirst.trans hSecond
            have hAbsent : g ∉ order₂ := fun hg =>
              (hBoth.offPath g hg).elim hNew fun hv => hv List.mem_cons_self
            have hDriver : ∀ s, s = g.left ∨ s = g.right →
                ∀ d, gateOf? gates s.var = some d → d ∈ order₂ := by
              rintro s (rfl | rfl) d hd
              · exact hLeftDriver d hd
              · exact hSecond.kept d (hRightDriver d hd)
            refine ⟨⟨.snoc hBoth.layered hMem hAbsent hDriver, ?_, ?_⟩, by simp⟩
            · intro x hx
              exact List.mem_append_left _ (hBoth.kept x hx)
            · intro x hx
              rcases List.mem_append.mp hx with hx | hx
              · exact (hBoth.weaken).offPath x hx
              · rw [List.mem_singleton] at hx
                exact .inr (hx ▸ hPath)

theorem foldlM_visit_eq_ok {gates rest : List Gate} {depth : Nat} {order order' : List Gate}
    (hOrder : Layered gates order) (hRest : ∀ g ∈ rest, g ∈ gates)
    (h : rest.foldlM (visit gates depth []) order = .ok order') :
    Layered gates order' ∧ (∀ g ∈ order, g ∈ order') ∧ ∀ g ∈ rest, g ∈ order' := by
  induction rest generalizing order with
  | nil =>
    injection h with h
    subst h
    exact ⟨hOrder, fun _ hg => hg, fun _ hg => absurd hg List.not_mem_nil⟩
  | cons g rest ih =>
    rw [List.foldlM_cons] at h
    cases hVisit : visit gates depth [] order g with
    | error e => simp [hVisit, bind, Except.bind] at h
    | ok order₁ =>
      simp only [hVisit, bind, Except.bind] at h
      obtain ⟨hExtends, hMem⟩ := visit_eq_ok hOrder (hRest g List.mem_cons_self) hVisit
      obtain ⟨hLayered, hKept, hAll⟩ := ih hExtends.layered
        (fun x hx => hRest x (List.mem_cons_of_mem g hx)) h
      refine ⟨hLayered, fun x hx => hKept x (hExtends.kept x hx), ?_⟩
      intro x hx
      rcases List.mem_cons.mp hx with rfl | hx
      · exact hKept x hMem
      · exact hAll x hx

/-- An evaluation order lists every gate, each after the gates that drive it. -/
theorem layered_of_evaluationOrder {gates order : List Gate}
    (h : evaluationOrder gates = .ok order) :
    Layered gates order ∧ ∀ g ∈ gates, g ∈ order := by
  obtain ⟨hLayered, _, hAll⟩ := foldlM_visit_eq_ok .nil (fun _ hg => hg) h
  exact ⟨hLayered, hAll⟩

namespace Layered

variable {gates order : List Gate}

theorem subset (h : Layered gates order) : ∀ g ∈ order, g ∈ gates := by
  induction h with
  | nil => intro g hg; cases hg
  | snoc _ hMem _ _ ih =>
    intro g hg
    rcases List.mem_append.mp hg with hg | hg
    · exact ih g hg
    · rw [List.mem_singleton] at hg
      exact hg ▸ hMem

theorem nodup (h : Layered gates order) : order.Nodup := by
  induction h with
  | nil => exact List.nodup_nil
  | snoc _ _ hNew _ ih =>
    refine List.nodup_append.mpr ⟨ih, List.nodup_cons.mpr ⟨List.not_mem_nil, List.nodup_nil⟩, ?_⟩
    intro x hx y hy
    rw [List.mem_singleton] at hy
    rintro rfl
    exact hNew (hy ▸ hx)

end Layered

end SoftError.Netlist

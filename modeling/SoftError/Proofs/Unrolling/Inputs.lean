import SoftError.Proofs.Circuit.Settled
import SoftError.Proofs.Stimulus.Admits
import SoftError.Proofs.Unrolling.Values

/-!
# Inputs of symbolic runs

A definite input becomes a constant and a free one a fresh variable. The literals of a step
can have exactly the values that the stimulus admits, and evaluating the gates leaves them
in place. So the next step of a symbolic run stands for the concrete steps on these values.
-/

namespace SoftError.Unrolling

variable {M : Set Assignment} {e : Encoder}

/-- The literals of the inputs, those among them that are fresh, and the encoder. -/
structure Opens (M : Set Assignment) (e : Encoder) (vs : List Level)
    (r : (List Lit × List Lit) × Encoder) : Prop where
  valid : r.2.Valid M
  le : e.nextVar ≤ r.2.nextVar
  models : r.2.models M = e.models M
  bounded : ∀ l ∈ r.1.1, l.var < r.2.nextVar
  known : ∀ l ∈ r.1.1, l.isConstant = true ∨ l ∈ r.1.2
  admits : ∀ ρ ∈ pinned, List.Forall₂ Level.Admits vs (r.1.1.map (Lit.holds ρ))
  lift : ∀ ρ ∈ e.models M, ∀ bs, List.Forall₂ Level.Admits vs bs →
    ∃ ρ' ∈ r.2.models M, AgreeBelow e.nextVar ρ ρ' ∧ r.1.1.map (Lit.holds ρ') = bs

theorem Opens.cons_definite {vs : List Level} {r : (List Lit × List Lit) × Encoder}
    (h : Opens M e vs r) (b : Bool) :
    Opens M e (.ofBool b :: vs) ((Lit.ofBool b :: r.1.1, r.1.2), r.2) := by
  have hConstant : (Lit.ofBool b).isConstant = true := by cases b <;> rfl
  refine ⟨h.valid, h.le, h.models, ?_, ?_, fun ρ hρ => ?_, fun ρ hρ bs hbs => ?_⟩
  · exact List.forall_mem_cons.mpr ⟨Encoder.var_lt_of_isConstant hConstant _, h.bounded⟩
  · exact List.forall_mem_cons.mpr ⟨.inl hConstant, h.known⟩
  · rw [List.map_cons, holds_ofBool hρ]
    exact .cons (.inr rfl) (h.admits ρ hρ)
  · obtain ⟨b', bs, hb', hTail, rfl⟩ := List.forall₂_cons_left_iff.mp hbs
    obtain ⟨ρ', hρ', hAgree, hMap⟩ := h.lift ρ hρ bs hTail
    have hSame : b = b' := by
      rcases hb' with hFree | hEq
      · exact absurd hFree (Level.ofBool_ne_free b)
      · have hBool := congrArg Level.toBool hEq
        rwa [Level.toBool_ofBool, Level.toBool_ofBool] at hBool
    refine ⟨ρ', hρ', hAgree, ?_⟩
    rw [List.map_cons, hMap, holds_ofBool (h.valid.mem_pinned hρ'), hSame]

theorem Opens.cons_free {vs : List Level} {r : (List Lit × List Lit) × Encoder} (he : e.Valid M)
    (h : Opens M e.fresh.2 vs r) :
    Opens M e (.free :: vs) ((e.fresh.1 :: r.1.1, e.fresh.1 :: r.1.2), r.2) := by
  have hVar : e.fresh.1.var < e.fresh.2.nextVar := by
    rw [Encoder.var_fresh]
    exact Nat.lt_succ_self _
  refine ⟨h.valid, (Nat.le_succ _).trans h.le, h.models, ?_, ?_,
    fun ρ hρ => .cons (.inl rfl) (h.admits ρ hρ), fun ρ hρ bs hbs => ?_⟩
  · exact List.forall_mem_cons.mpr ⟨lt_of_lt_of_le hVar h.le, h.bounded⟩
  · refine List.forall_mem_cons.mpr ⟨.inr List.mem_cons_self, fun l hl => ?_⟩
    exact (h.known l hl).imp_right (List.mem_cons_of_mem _)
  · -- The fresh variable is given its value before the other inputs get theirs.
    obtain ⟨b, bs, _, hTail, rfl⟩ := List.forall₂_cons_left_iff.mp hbs
    obtain ⟨ρ', hρ', hAgree, hMap⟩ := h.lift _ (he.update_mem hρ b) bs hTail
    have hNew : e.fresh.1.holds ρ' = b := by
      rw [← hAgree.holds hVar, Encoder.holds_fresh, Function.update_self]
    refine ⟨ρ', hρ', (AgreeBelow.update _ ρ b).trans (hAgree.mono (Nat.le_succ _)), ?_⟩
    rw [List.map_cons, hNew, hMap]

theorem opens_levelLits (h : e.Valid M) (vs : List Level) : Opens M e vs (levelLits e vs) := by
  induction vs generalizing e with
  | nil =>
    refine ⟨h, le_rfl, rfl, by simp [levelLits], by simp [levelLits], fun _ _ => .nil, ?_⟩
    intro ρ hρ bs hbs
    cases hbs
    exact ⟨ρ, hρ, .refl _ _, rfl⟩
  | cons v vs ih =>
    cases hv : v.toBool? with
    | some b =>
      rw [levelLits, hv, Level.eq_ofBool_of_toBool? hv]
      exact (ih h).cons_definite b
    | none =>
      rw [levelLits, hv, Level.toBool?_eq_none_iff.mp hv]
      exact .cons_free h (ih h.fresh)

theorem cache_levelLits (e : Encoder) (vs : List Level) : (levelLits e vs).2.cache = e.cache := by
  induction vs generalizing e with
  | nil => rfl
  | cons v vs ih =>
    cases hv : v.toBool? with
    | some b => simp only [levelLits, hv, ih]
    | none =>
      simp only [levelLits, hv, ih]
      rfl

variable {c : Circuit} {u : Unrolling}

theorem get_foldl_evalGate_of_notMem {gates : List Gate} {v : Nat}
    (h : v ∉ gates.map Gate.var) (s : Table Lit × Encoder) :
    (gates.foldl evalGate s).1.get v = s.1.get v := by
  induction gates generalizing s with
  | nil => rfl
  | cons g gates ih =>
    rw [List.map_cons, List.mem_cons, not_or] at h
    rw [List.foldl_cons, ih h.2]
    change (s.1.set g.var _).get v = _
    rw [Table.get_set, if_neg (Ne.symm h.1)]

theorem inputs_step (u : Unrolling) (e : Encoder) : (u.step c e).1.inputs c = u.inputs c := by
  refine List.map_congr_left fun s hs => ?_
  rw [Table.read_of_plain (c.input_plain hs), Table.read_of_plain (c.input_plain hs)]
  exact get_foldl_evalGate_of_notMem (c.input_notMem_gates hs) (u.table, e)

theorem inputs_setInputs (u : Unrolling) {ls : List Lit} (h : ls.length = c.inputs.length) :
    (u.setInputs c ls).inputs c = ls := by
  refine Eq.trans ?_ (Table.map_get_setAll c.inputs_nodup u.table h)
  exact List.map_congr_left fun s hs => Table.read_of_plain (c.input_plain hs) _

variable (c) in
/-- Applies an input vector and encodes the gates. -/
def drive (s : Unrolling × Encoder) (vs : List Level) : Unrolling × Encoder :=
  let (u, e) := s.1.applyLevels c vs s.2
  u.step c e

structure Drives (c : Circuit) (M : Set Assignment) (u : Unrolling) (e : Encoder)
    (vs : List Level) (r : Unrolling × Encoder) : Prop where
  valid : r.2.Valid M
  le : e.nextVar ≤ r.2.nextVar
  subset : r.2.models M ⊆ e.models M
  plain : e.cache = none → r.2.cache = none
  bounded : r.1.table.Below r.2.nextVar
  opened : u.opened ⊆ r.1.opened
  known : ∀ l ∈ r.1.inputs c, l.isConstant = true ∨ l ∈ r.1.opened
  admits : ∀ ρ ∈ r.2.models M, List.Forall₂ Level.Admits vs ((r.1.inputs c).map (Lit.holds ρ))
  values : ∀ ρ ∈ r.2.models M, ∀ t, u.table.Values (Lit.holds ρ) t →
    r.1.table.Values (Lit.holds ρ) (t.step c ((r.1.inputs c).map (Lit.holds ρ)))
  lift : ∀ ρ ∈ e.models M, ∀ bs, List.Forall₂ Level.Admits vs bs →
    ∃ ρ' ∈ r.2.models M, AgreeBelow e.nextVar ρ ρ' ∧ (r.1.inputs c).map (Lit.holds ρ') = bs

theorem drives (h : e.Valid M) (hu : u.table.Below e.nextVar) {vs : List Level}
    (hLength : vs.length = c.inputs.length) : Drives c M u e vs (drive c (u, e) vs) := by
  obtain ⟨ls, opened, e', hLits⟩ :
      ∃ ls opened e', levelLits e vs = ((ls, opened), e') := ⟨_, _, _, rfl⟩
  have hOpens := opens_levelLits h vs
  rw [hLits] at hOpens
  have hCount : ls.length = c.inputs.length := by
    obtain ⟨ρ, hρ⟩ : ∃ ρ, ρ ∈ pinned := ⟨fun _ => false, rfl⟩
    have hEq := (hOpens.admits ρ hρ).length_eq
    rw [List.length_map] at hEq
    exact hEq.symm.trans hLength
  have hApply : u.applyLevels c vs e =
      ({ u.setInputs c ls with opened := u.opened ++ opened }, e') := by
    rw [applyLevels, List.take_of_length_le hLength.le, hLits]
  have hTable : (u.setInputs c ls).table.Below e'.nextVar :=
    (hu.mono hOpens.le).setAll c.inputs hOpens.bounded
  have hStep := performs_step (c := c) (u := { u.setInputs c ls with opened := u.opened ++ opened })
    hOpens.valid hTable
  have hDrive : drive c (u, e) vs =
      ({ u.setInputs c ls with opened := u.opened ++ opened }).step c e' := by
    rw [drive, hApply]
  -- no gate overwrites an input
  have hInputs : (drive c (u, e) vs).1.inputs c = ls := by
    rw [hDrive, inputs_step]
    exact inputs_setInputs u hCount
  have hOpened : (drive c (u, e) vs).1.opened = u.opened ++ opened := by
    rw [hDrive]
    rfl
  have hSubset : (drive c (u, e) vs).2.models M ⊆ e.models M := by
    rw [hDrive, ← hOpens.models]
    exact hStep.subset
  have hPinned : ∀ ρ ∈ (drive c (u, e) vs).2.models M, ρ ∈ pinned :=
    fun ρ hρ => h.mem_pinned (hSubset hρ)
  rw [← hDrive] at hStep
  refine ⟨hStep.valid, hOpens.le.trans hStep.le, hSubset, fun hNone => ?_, hStep.bounded, ?_, ?_,
    ?_, ?_, ?_⟩
  · refine hStep.plain ?_
    have hCache := cache_levelLits e vs
    rw [hLits] at hCache
    exact hCache.trans hNone
  · rw [hOpened]
    exact List.subset_append_left _ _
  · rw [hInputs, hOpened]
    exact fun l hl => (hOpens.known l hl).imp_right (List.mem_append_right _)
  · intro ρ hρ
    rw [hInputs]
    exact hOpens.admits ρ (hPinned ρ hρ)
  · intro ρ hρ t ht
    rw [hInputs]
    exact hStep.values ρ hρ _ (ht.setAll c.inputs ls)
  · intro ρ hρ bs hbs
    obtain ⟨ρ₁, hρ₁, hAgree, hMap⟩ := hOpens.lift ρ hρ bs hbs
    obtain ⟨ρ₂, hρ₂, hAgree'⟩ := hStep.lift ρ₁ hρ₁
    refine ⟨ρ₂, hρ₂, hAgree.trans (hAgree'.mono hOpens.le), ?_⟩
    rw [hInputs, ← hAgree'.map_holds hOpens.bounded]
    exact hMap

end SoftError.Unrolling

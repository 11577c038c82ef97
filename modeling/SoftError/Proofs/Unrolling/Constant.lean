import SoftError.Proofs.Unrolling.Alarms

/-!
# Symbolic runs on definite inputs

Constants are folded by the encoder, so a symbolic run without free inputs never meets a
variable: its literals are the constants of the concrete run, whatever the clauses say.
-/

namespace SoftError

namespace Lit

theorem neg_ofBool (b : Bool) : -ofBool b = ofBool (!b) := by
  cases b <;> rfl

end Lit

theorem Encoder.and_ofBool (e : Encoder) (a b : Bool) :
    e.and (.ofBool a) (.ofBool b) = (.ofBool (a && b), e) := by
  cases a with
  | false => exact if_pos (.inl rfl)
  | true =>
    cases b with
    | false => exact if_pos (.inr rfl)
    | true =>
      have hTop : ¬ (Lit.ofBool true = .bot ∨ Lit.ofBool true = .bot) := by decide
      exact (if_neg hTop).trans (if_pos rfl)

namespace Table

/-- The entries are the constants of a Boolean table. -/
def Folds (T : Table Lit) (t : Table Bool) : Prop := ∀ v, T.get v = Lit.ofBool (t.get v)

variable {T : Table Lit} {t : Table Bool}

theorem Folds.set (h : T.Folds t) (v : Nat) (b : Bool) :
    (T.set v (Lit.ofBool b)).Folds (t.set v b) := by
  intro w
  rw [get_set, get_set]
  split
  · rfl
  · exact h w

theorem Folds.setAll (h : T.Folds t) (ss : List Signal) (bs : List Bool) :
    (T.setAll ss (bs.map Lit.ofBool)).Folds (t.setAll ss bs) := by
  induction ss generalizing T t bs with
  | nil => exact h
  | cons s ss ih =>
    cases bs with
    | nil => exact h
    | cons b bs => exact ih (h.set s.var b) bs

theorem Folds.setLatches (h : T.Folds t) (ls : List Latch) (bs : List Bool) :
    (T.setLatches ls (bs.map Lit.ofBool)).Folds (t.setLatches ls bs) := by
  rw [setLatches_eq_setAll, setLatches_eq_setAll]
  exact h.setAll _ bs

theorem Folds.read (h : T.Folds t) (s : Signal) : T.read s = Lit.ofBool (t.read s) := by
  rw [Table.read, Table.read]
  split
  · rw [h s.var]
    exact Lit.neg_ofBool _
  · exact h s.var

theorem Folds.alarm (h : T.Folds t) (c : Circuit) : T.alarm c = Lit.ofBool (t.alarm c) := by
  rw [Table.alarm, Table.alarm]
  cases c.alarm? with
  | none => rfl
  | some s => exact h.read s

theorem Folds.advance (h : T.Folds t) (c : Circuit) : (T.advance c).Folds (t.advance c) := by
  have hNext : T.nextState c = (t.nextState c).map Lit.ofBool := by
    rw [Table.nextState, Table.nextState, List.map_map]
    exact List.map_congr_left fun l _ => h.read l.next
  rw [Table.advance, hNext]
  exact h.setLatches c.latches _

theorem folds_initial (c : Circuit) :
    (Table.initial c : Table Lit).Folds (Table.initial c : Table Bool) := by
  have hBlank : (blankUpTo c.maxVar (SignalValue.ofBool false) : Table Lit).Folds
      (blankUpTo c.maxVar (SignalValue.ofBool false)) := by
    intro v
    rw [get_blankUpTo, get_blankUpTo]
    rfl
  have hReset := hBlank.setLatches c.latches (c.latches.map Latch.initial)
  rw [List.map_map] at hReset
  exact hReset

end Table

namespace Unrolling

variable {T : Table Lit} {t : Table Bool} {e : Encoder}

theorem folds_gates (h : T.Folds t) (gates : List Gate) :
    (gates.foldl evalGate (T, e)).1.Folds (gates.foldl Table.evalGate t) ∧
      (gates.foldl evalGate (T, e)).2 = e := by
  induction gates generalizing T t with
  | nil => exact ⟨h, rfl⟩
  | cons g gates ih =>
    have hGate : evalGate (T, e) g =
        (T.set g.var (.ofBool (t.read g.left && t.read g.right)), e) := by
      rw [evalGate, h.read, h.read, Encoder.and_ofBool]
    rw [List.foldl_cons, List.foldl_cons, hGate]
    exact ih (h.set g.var _)

theorem levelLits_of_definite {vs : List Level} (h : ∀ v ∈ vs, v ≠ .free) :
    levelLits e vs = (((vs.map Level.toBool).map Lit.ofBool, []), e) := by
  induction vs with
  | nil => rfl
  | cons v vs ih =>
    obtain ⟨hv, hvs⟩ := List.forall_mem_cons.mp h
    have hSome : v.toBool? = some v.toBool := by
      cases v with
      | free => exact absurd rfl hv
      | low | high => rfl
    rw [levelLits, hSome, ih hvs]
    rfl

theorem folds_drive {c : Circuit} {u : Unrolling} (h : u.table.Folds t) {vs : List Level}
    (hLength : vs.length = c.inputs.length) (hDefinite : ∀ v ∈ vs, v ≠ .free) :
    (drive c (u, e) vs).1.table.Folds (t.step c (vs.map Level.toBool)) := by
  have hApply : (u.applyLevels c vs e).1.table =
      u.table.setInputs c ((vs.map Level.toBool).map Lit.ofBool) := by
    rw [applyLevels, List.take_of_length_le hLength.le, levelLits_of_definite hDefinite]
    rfl
  have hTable : (u.applyLevels c vs e).1.table.Folds (t.setInputs c (vs.map Level.toBool)) := by
    rw [hApply]
    exact h.setAll c.inputs _
  exact (folds_gates hTable c.gates).1

theorem isConstant_of_mem_alarmsFrom {c : Circuit} {u : Unrolling} (h : u.table.Folds t)
    {steps : List (List Level)} (hLength : ∀ vs ∈ steps, vs.length = c.inputs.length)
    (hDefinite : ∀ vs ∈ steps, ∀ v ∈ vs, v ≠ .free) :
    ∀ a ∈ alarmsFrom c (u, e) steps, a.isConstant = true := by
  induction steps generalizing u e t with
  | nil => exact List.forall_mem_nil _
  | cons vs steps ih =>
    obtain ⟨hFirst, hLength⟩ := List.forall_mem_cons.mp hLength
    obtain ⟨hHead, hDefinite⟩ := List.forall_mem_cons.mp hDefinite
    have hDrive := folds_drive (e := e) h hFirst hHead
    refine List.forall_mem_cons.mpr ⟨?_, ih (hDrive.advance c) hLength hDefinite⟩
    rw [alarm, hDrive.alarm c]
    cases Table.alarm c (t.step c (vs.map Level.toBool)) <;> rfl

/-- Without free inputs every golden alarm is constant. -/
theorem isConstant_of_mem_alarms {c : Circuit} {steps : List (List Level)}
    (hLength : ∀ vs ∈ steps, vs.length = c.inputs.length)
    (hDefinite : ∀ vs ∈ steps, ∀ v ∈ vs, v ≠ .free) :
    ∀ a ∈ alarms c steps, a.isConstant = true :=
  isConstant_of_mem_alarmsFrom (Table.folds_initial c) hLength hDefinite

end Unrolling

end SoftError

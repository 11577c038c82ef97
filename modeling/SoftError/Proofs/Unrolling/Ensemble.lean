import SoftError.Proofs.Encoding.Calls
import SoftError.Proofs.Unrolling.Constant

/-!
# Symbolic runs on a shared encoder

Several unrollings may move on one encoder, in any order and with other calls in between.
Under every model of the clauses each of them has the values of a concrete run that makes the
same moves. The variables that were opened may have any values, and without any the encoder
is left as it was.
-/

namespace SoftError

/-- The values of an input vector whose free inputs are the variables from `n` on. -/
def Level.fill (ρ : Assignment) : Nat → List Level → List Bool
  | _, [] => []
  | n, v :: vs =>
    match v.toBool? with
    | some b => b :: fill ρ n vs
    | none => ρ n :: fill ρ (n + 1) vs

theorem Level.fill_of_definite {vs : List Level} (h : ∀ v ∈ vs, v ≠ .free) (ρ : Assignment)
    (n : Nat) : fill ρ n vs = vs.map toBool := by
  induction vs with
  | nil => rfl
  | cons v vs ih =>
    obtain ⟨hv, hvs⟩ := List.forall_mem_cons.mp h
    cases v with
    | free => exact absurd rfl hv
    | low | high => exact congrArg _ (ih hvs)

namespace Table

variable {T : Table Lit} {t : Table Bool}

theorem Below.reset {n : Nat} (h : T.Below n) (hn : 2 ≤ n) (c : Circuit) : (T.reset c).Below n := by
  rw [Table.reset, setState, setLatches_eq_setAll]
  refine h.setAll _ fun l hl => ?_
  obtain ⟨latch, _, rfl⟩ := List.mem_map.mp hl
  change (Lit.ofBool latch.initial).var < n
  cases latch.initial <;> exact hn

theorem Folds.reset (h : T.Folds t) (c : Circuit) : (T.reset c).Folds (t.reset c) := by
  have hReset := h.setLatches c.latches (c.latches.map Latch.initial)
  rw [List.map_map] at hReset
  exact hReset

end Table

namespace Unrolling

section Levels

variable {M : Set Assignment} {e : Encoder}

theorem encoder_levelLits (e : Encoder) (vs : List Level) :
    (levelLits e vs).2 = (e.freshList (vs.count .free)).2 := by
  induction vs generalizing e with
  | nil => rfl
  | cons v vs ih =>
    cases v with
    | free =>
      rw [List.count_cons_self]
      exact ih e.fresh.2
    | low | high =>
      rw [List.count_cons_of_ne (by decide)]
      exact ih e

theorem map_holds_levelLits {ρ : Assignment} (hρ : ρ ∈ pinned) (e : Encoder) (vs : List Level) :
    (levelLits e vs).1.1.map (Lit.holds ρ) = Level.fill ρ e.nextVar vs := by
  induction vs generalizing e with
  | nil => rfl
  | cons v vs ih =>
    cases v with
    | free => exact congr (congrArg _ (e.holds_fresh ρ)) (ih e.fresh.2)
    | low => exact congr (congrArg _ (holds_ofBool hρ false)) (ih e)
    | high => exact congr (congrArg _ (holds_ofBool hρ true)) (ih e)

end Levels

inductive Move where
  | reset
  | levels (vs : List Level)
  | openInputs
  | openState
  | latch (index : Nat) (l : Lit)
  | step
  | advance

namespace Move

section

variable (c : Circuit)

def apply (u : Unrolling) (e : Encoder) : Move → Unrolling × Encoder
  | reset => (u.reset c, e)
  | levels vs => u.applyLevels c vs e
  | openInputs => u.openInputs c e
  | openState => u.openState c e
  | latch index l => (u.setLatch c index l, e)
  | step => u.step c e
  | advance => (u.advance c, e)

/-- How many variables are opened. -/
def openCount : Move → Nat
  | levels vs => (vs.take c.inputs.length).count .free
  | openInputs => c.inputs.length
  | openState => c.latches.length
  | _ => 0

/-- The move of a concrete run, where the variables from `n` on are opened. -/
def concrete (ρ : Assignment) (n : Nat) (t : Table Bool) : Move → Table Bool
  | reset => t.reset c
  | levels vs => t.setInputs c (Level.fill ρ n (vs.take c.inputs.length))
  | openInputs => t.setInputs c ((List.range' n c.inputs.length).map ρ)
  | openState => t.setState c ((List.range' n c.latches.length).map ρ)
  | latch index l => (t.setLatch? c index (l.holds ρ)).getD t
  | step => t.settle c
  | advance => t.advance c

end

def arguments : Move → List Lit
  | latch _ l => [l]
  | _ => []

/-- Nothing is opened, and no latch is replaced by a variable. -/
def definite : Move → Bool
  | levels vs => vs.all (· ≠ .free)
  | latch _ l => l.isConstant
  | openInputs | openState => false
  | reset | step | advance => true

end Move

variable {M : Set Assignment} {e : Encoder} {c : Circuit} {u : Unrolling} {t : Table Bool}

theorem table_setLatch_getD (index : Nat) (l : Lit) :
    (u.setLatch c index l).table = (u.table.setLatch? c index l).getD u.table := by
  rw [setLatch, setLatch?]
  cases u.table.setLatch? c index l <;> rfl

theorem performs_move (h : e.Valid M) (hu : u.table.Below e.nextVar) {m : Move}
    (hm : ∀ l ∈ m.arguments, l.var < e.nextVar) :
    Performs M e u.table ((m.apply c u e).1.table, (m.apply c u e).2)
      fun ρ t => m.concrete c ρ e.nextVar t := by
  cases m with
  | reset =>
    refine ⟨.refl h, hu.reset e.two_le_nextVar c, fun ρ hρ t ht => ?_⟩
    exact ht.reset (evaluation_holds (h.mem_pinned hρ)) c
  | levels vs =>
    have hOpens := opens_levelLits h (vs.take c.inputs.length)
    have hExtends := h.freshList_extends ((vs.take c.inputs.length).count .free)
    rw [← encoder_levelLits] at hExtends
    refine ⟨hExtends, (hu.mono hOpens.le).setAll c.inputs hOpens.bounded, fun ρ hρ t ht => ?_⟩
    have hSet := ht.setAll c.inputs (levelLits e (vs.take c.inputs.length)).1.1
    rwa [map_holds_levelLits (hExtends.valid.mem_pinned hρ)] at hSet
  | openInputs => exact performs_freshList h hu c.inputs c.inputs.length
  | openState =>
    have hFresh := performs_freshList h hu (c.latches.map Latch.signal) c.latches.length
    simp only [← Table.setLatches_eq_setAll] at hFresh
    exact hFresh
  | latch index l =>
    have hl : l.var < e.nextVar := hm l (List.mem_singleton_self l)
    refine ⟨.refl h, ?_, fun ρ _ t ht => ?_⟩
    · change (u.setLatch c index l).table.Below e.nextVar
      rw [table_setLatch_getD, Table.setLatch?]
      cases c.latches[index]? with
      | none => exact hu
      | some latch => exact hu.set latch.signal.var hl
    · change (u.setLatch c index l).table.Values (Lit.holds ρ) _
      rw [table_setLatch_getD, Table.setLatch?, Move.concrete, Table.setLatch?]
      cases c.latches[index]? with
      | none => exact ht
      | some latch => exact ht.set latch.signal.var l
  | step => exact performs_step h hu
  | advance =>
    refine ⟨.refl h, hu.advance c, fun ρ hρ t ht => ?_⟩
    exact ht.advance (evaluation_holds (h.mem_pinned hρ)) c

/-- What is read off the literals are the values of a concrete table. -/
structure Reads (c : Circuit) (ρ : Assignment) (u : Unrolling) (t : Table Bool) : Prop where
  outputs : (u.outputs c).map (Lit.holds ρ) = t.outputs c
  alarm : (u.alarm c).holds ρ = t.alarm c
  state : (u.state c).map (Lit.holds ρ) = t.state c
  nextState : (u.nextState c).map (Lit.holds ρ) = t.nextState c

theorem reads_of_values {ρ : Assignment} (hρ : ρ ∈ pinned) (h : u.table.Values (Lit.holds ρ) t) :
    u.Reads c ρ t :=
  have hev := evaluation_holds hρ
  ⟨h.outputs hev c, h.alarm hev c, h.state hev c, h.nextState hev c⟩

/-- The table of a definite run stays constant, and its encoder idle. -/
theorem folds_move (h : u.table.Folds t) {m : Move} (hm : m.definite = true) {ρ : Assignment}
    (hρ : ρ ∈ pinned) (n : Nat) :
    (m.apply c u e).1.table.Folds (m.concrete c ρ n t) ∧ (m.apply c u e).2 = e ∧
      m.openCount c = 0 := by
  cases m with
  | reset => exact ⟨h.reset c, rfl, rfl⟩
  | levels vs =>
    have hDefinite : ∀ v ∈ vs.take c.inputs.length, v ≠ .free := by
      intro v hv
      exact of_decide_eq_true (List.all_eq_true.mp hm v (List.mem_of_mem_take hv))
    have hLits := levelLits_of_definite (e := e) hDefinite
    refine ⟨?_, ?_, List.count_eq_zero.mpr fun hFree => hDefinite _ hFree rfl⟩
    · rw [Move.apply, applyLevels, Move.concrete, Level.fill_of_definite hDefinite, hLits]
      exact h.setAll c.inputs _
    · rw [Move.apply, applyLevels, hLits]
  | openInputs | openState => cases hm
  | latch index l =>
    obtain ⟨b, rfl⟩ : ∃ b, l = Lit.ofBool b := by
      rcases (Lit.isConstant_iff l).mp hm with rfl | rfl
      · exact ⟨false, rfl⟩
      · exact ⟨true, rfl⟩
    refine ⟨?_, rfl, rfl⟩
    change (u.setLatch c index _).table.Folds _
    rw [table_setLatch_getD, Table.setLatch?, Move.concrete, Table.setLatch?, holds_ofBool hρ]
    cases c.latches[index]? with
    | none => exact h
    | some latch => exact h.set latch.signal.var b
  | step =>
    obtain ⟨hFolds, hEncoder⟩ := folds_gates (e := e) h c.gates
    exact ⟨hFolds, hEncoder, rfl⟩
  | advance => exact ⟨h.advance c, rfl, rfl⟩

end Unrolling

/-- Opening a vector of variables at once. -/
theorem Workbench.Conservative.freshList {w : Workbench} (h : w.Conservative) (k : Nat) :
    Conservative { w with
      encoder := (w.encoder.freshList k).2
      free := w.free ++ List.range' w.encoder.nextVar k } := by
  induction k generalizing w with
  | zero =>
    rw [List.range'_zero, List.append_nil]
    exact h
  | succ k ih =>
    have hRest := ih h.fresh.conservative
    have hFree : (w.perform .fresh).2.free ++
        List.range' (w.perform .fresh).2.encoder.nextVar k =
          w.free ++ List.range' w.encoder.nextVar (k + 1) := by
      rw [List.range'_succ, List.append_cons, ← w.encoder.var_fresh]
      rfl
    rw [hFree] at hRest
    exact hRest

open Unrolling (Move)

/-- Unrollings of several circuits with an encoder in common. -/
structure Ensemble (ι : Type) where
  workbench : Workbench
  unrollings : ι → Unrolling

namespace Ensemble

inductive Act (ι : Type) where
  | call (k : Encoder.Call)
  | move (i : ι) (m : Move)

namespace Act

variable {ι : Type}

/-- The literals in an act are over variables below `n`. -/
def Fits (n : Nat) : Act ι → Prop
  | call k => k.Fits n
  | move _ m => ∀ l ∈ m.arguments, l.var < n

instance (n : Nat) : (a : Act ι) → Decidable (a.Fits n)
  | call k => inferInstanceAs (Decidable (k.Fits n))
  | move _ m => inferInstanceAs (Decidable (∀ l ∈ m.arguments, l.var < n))

def definite : Act ι → Bool
  | call _ => false
  | move _ m => m.definite

end Act

variable {ι : Type} [DecidableEq ι] (c : ι → Circuit)

def perform (s : Ensemble ι) : Act ι → Ensemble ι
  | .call k => { s with workbench := (s.workbench.perform k).2 }
  | .move i m =>
    let r := m.apply (c i) (s.unrollings i) s.workbench.encoder
    let opened := List.range' s.workbench.encoder.nextVar (m.openCount (c i))
    { workbench := { s.workbench with encoder := r.2, free := s.workbench.free ++ opened }
      unrollings := Function.update s.unrollings i r.1 }

def run (acts : List (Act ι)) (s : Ensemble ι) : Ensemble ι := acts.foldl (perform c) s

/-- The arguments of each act are constants or over variables handed out before. -/
def Admits : Ensemble ι → List (Act ι) → Prop
  | _, [] => True
  | s, a :: acts => a.Fits s.workbench.encoder.nextVar ∧ Admits (s.perform c a) acts

instance decidableAdmits : (s : Ensemble ι) → (acts : List (Act ι)) → Decidable (s.Admits c acts)
  | _, [] => isTrue trivial
  | s, a :: acts =>
    have := decidableAdmits (s.perform c a) acts
    inferInstanceAs (Decidable (a.Fits s.workbench.encoder.nextVar ∧ (s.perform c a).Admits c acts))

/-- The same act of concrete runs. -/
def mimic (ρ : Assignment) (s : Ensemble ι) (ts : ι → Table Bool) : Act ι → ι → Table Bool
  | .call _ => ts
  | .move i m =>
    Function.update ts i (m.concrete (c i) ρ s.workbench.encoder.nextVar (ts i))

def mimicAll (ρ : Assignment) : List (Act ι) → Ensemble ι → (ι → Table Bool) → ι → Table Bool
  | [], _, ts => ts
  | a :: acts, s, ts => mimicAll ρ acts (s.perform c a) (s.mimic c ρ ts a)

def initial (w : Workbench) : Ensemble ι := ⟨w, fun i => .initial (c i)⟩

/-- The unrollings have the values of concrete runs. -/
structure Mirrors (s : Ensemble ι) (ts : Assignment → ι → Table Bool) : Prop where
  conservative : s.workbench.Conservative
  bounded : ∀ i, (s.unrollings i).table.Below s.workbench.encoder.nextVar
  values : ∀ ρ ∈ s.workbench.models, ∀ i, (s.unrollings i).table.Values (Lit.holds ρ) (ts ρ i)

variable {c} {s : Ensemble ι} {ts : Assignment → ι → Table Bool}

theorem unrollings_move (s : Ensemble ι) (i : ι) (m : Move) :
    (s.perform c (.move i m)).unrollings = Function.update s.unrollings i
      (m.apply (c i) (s.unrollings i) s.workbench.encoder).1 := rfl

omit [DecidableEq ι] in
theorem mirrors_initial (caching : Bool) :
    Mirrors (initial c (.new caching)) fun _ i => .initial (c i) where
  conservative := Workbench.conservative_new caching
  bounded i := Table.below_initial (Encoder.two_le_nextVar _) (c i)
  values _ hρ i := Table.values_initial (evaluation_holds hρ.1) (c i)

theorem Mirrors.perform_call (h : Mirrors s ts) {k : Encoder.Call}
    (hFits : k.Fits s.workbench.encoder.nextVar) :
    Mirrors (s.perform c (.call k)) fun ρ => s.mimic c ρ (ts ρ) (.call k) := by
  have hCall := h.conservative.perform hFits
  exact ⟨hCall.conservative, fun i => (h.bounded i).mono hCall.le,
    fun ρ hρ i => h.values ρ (hCall.subset hρ) i⟩

theorem Mirrors.conservative_move (h : Mirrors s ts) (i : ι) {m : Move}
    (hm : ∀ l ∈ m.arguments, l.var < s.workbench.encoder.nextVar) :
    (s.perform c (.move i m)).workbench.Conservative := by
  have hMove := Unrolling.performs_move (c := c i) h.conservative.valid (h.bounded i) hm
  cases m with
  | openInputs | openState => exact h.conservative.freshList _
  | levels vs =>
    have hOpen := h.conservative.freshList ((vs.take (c i).inputs.length).count .free)
    rw [← Unrolling.encoder_levelLits] at hOpen
    exact hOpen
  | reset | latch _ _ | step | advance =>
    have hExtend := h.conservative.extend hMove.toExtends
    rw [← s.workbench.free.append_nil] at hExtend
    exact hExtend

theorem Mirrors.perform_move (h : Mirrors s ts) (i : ι) {m : Move}
    (hm : ∀ l ∈ m.arguments, l.var < s.workbench.encoder.nextVar) :
    Mirrors (s.perform c (.move i m)) fun ρ => s.mimic c ρ (ts ρ) (.move i m) := by
  have hMove := Unrolling.performs_move (c := c i) h.conservative.valid (h.bounded i) hm
  have hSubset : (s.perform c (.move i m)).workbench.models ⊆ s.workbench.models :=
    Workbench.models_subset hMove.toExtends
  refine ⟨h.conservative_move i hm, fun j => ?_, fun ρ hρ j => ?_⟩
  · by_cases hj : j = i
    · subst hj
      rw [unrollings_move, Function.update_self]
      exact hMove.bounded
    · rw [unrollings_move, Function.update_of_ne hj]
      exact (h.bounded j).mono hMove.le
  · by_cases hj : j = i
    · subst hj
      rw [unrollings_move, mimic, Function.update_self, Function.update_self]
      refine hMove.values ρ ?_ (ts ρ j) (h.values ρ (hSubset hρ) j)
      rw [Workbench.models_eq] at hρ
      exact hρ
    · rw [unrollings_move, mimic, Function.update_of_ne hj, Function.update_of_ne hj]
      exact h.values ρ (hSubset hρ) j

theorem Mirrors.run (h : Mirrors s ts) {acts : List (Act ι)} (hAdmits : s.Admits c acts) :
    Mirrors (s.run c acts) fun ρ => mimicAll c ρ acts s (ts ρ) := by
  induction acts generalizing s ts with
  | nil => exact h
  | cons a acts ih =>
    cases a with
    | call k => exact ih (h.perform_call hAdmits.1) hAdmits.2
    | move i m => exact ih (h.perform_move i hAdmits.1) hAdmits.2

theorem folds_run {ρ : Assignment} (hρ : ρ ∈ pinned) {ts : ι → Table Bool}
    (h : ∀ i, (s.unrollings i).table.Folds (ts i)) {acts : List (Act ι)}
    (hActs : ∀ a ∈ acts, a.definite = true) :
    (s.run c acts).workbench = s.workbench ∧
      ∀ i, ((s.run c acts).unrollings i).table.Folds (mimicAll c ρ acts s ts i) := by
  induction acts generalizing s ts with
  | nil => exact ⟨rfl, h⟩
  | cons a acts ih =>
    obtain ⟨hFirst, hRest⟩ := List.forall_mem_cons.mp hActs
    cases a with
    | call k => cases hFirst
    | move i m =>
      obtain ⟨hFolds, hEncoder, hOpen⟩ := Unrolling.folds_move (c := c i)
        (e := s.workbench.encoder) (h i) hFirst hρ s.workbench.encoder.nextVar
      have hIdle : (s.perform c (.move i m)).workbench = s.workbench := by
        rw [perform, hEncoder, hOpen, List.range'_zero, List.append_nil]
      have hTables : ∀ j, ((s.perform c (.move i m)).unrollings j).table.Folds
          (s.mimic c ρ ts (.move i m) j) := by
        intro j
        by_cases hj : j = i
        · subst hj
          rw [unrollings_move, mimic, Function.update_self, Function.update_self]
          exact hFolds
        · rw [unrollings_move, mimic, Function.update_of_ne hj, Function.update_of_ne hj]
          exact h j
      obtain ⟨hWorkbench, hLast⟩ := ih hTables hRest
      exact ⟨hWorkbench.trans hIdle, hLast⟩

/-- What is read off the unrollings are the values of concrete runs, and the variables that were
opened may have any values. Where none was, there is nothing but constants. All literals are in
range as long as no variable is too large. -/
theorem reads_concrete_runs (c : ι → Circuit) (caching : Bool) {acts : List (Act ι)}
    {s : Ensemble ι} (hAdmits : (initial c (.new caching)).Admits c acts)
    (hRun : (initial c (.new caching)).run c acts = s) :
    (∀ ρ ∈ s.workbench.models, ∀ i, (s.unrollings i).Reads (c i) ρ
      (mimicAll c ρ acts (initial c (.new caching)) (fun i => .initial (c i)) i)) ∧
    (∀ α : Assignment, ∃ ρ ∈ s.workbench.models, ∀ v ∈ s.workbench.free, ρ v = α v) ∧
    ((∀ a ∈ acts, a.definite = true) → ∀ w : Workbench, ((initial c w).run c acts).workbench = w ∧
      ∀ ρ : Assignment, ρ 1 = false → ∀ i v, (((initial c w).run c acts).unrollings i).table.get v =
        .ofBool ((mimicAll c ρ acts (initial c w) (fun i => .initial (c i)) i).get v)) ∧
    (s.workbench.encoder.InRange → s.workbench.emitted.InRange ∧
      ∀ i v, ((s.unrollings i).table.get v).InRange) := by
  have hMirrors := (mirrors_initial caching).run hAdmits
  rw [hRun] at hMirrors
  refine ⟨fun ρ hρ i => ?_, hMirrors.conservative.extension, fun hDefinite w => ?_, fun hRange =>
    ⟨hMirrors.conservative.inRange hRange, fun i v => hRange.lit (hMirrors.bounded i v)⟩⟩
  · exact Unrolling.reads_of_values hρ.1 (hMirrors.values ρ hρ i)
  · have hFolds := fun (ρ : Assignment) (hρ : ρ ∈ pinned) =>
      folds_run (c := c) hρ (s := initial c w) (fun i => Table.folds_initial (c i)) hDefinite
    exact ⟨(hFolds (fun _ => false) rfl).1, fun ρ hρ i => (hFolds ρ hρ).2 i⟩

/-- The latch is high for one step after each step in which it is low and the input is high. -/
def pulse : Circuit where
  maxVar := 3
  inputs := [⟨2⟩]
  latches := [⟨⟨4⟩, ⟨6⟩, none⟩]
  outputs := [⟨6⟩, ⟨4⟩]
  gates := [⟨⟨6⟩, ⟨2⟩, ⟨5⟩⟩]
  wellFormed := ⟨by decide, by decide, by decide, by decide, by decide, by decide,
    ⟨by decide, trivial⟩⟩

def pulseActs : List (Act Bool) :=
  [.move true .openState, .move true .openInputs, .move false (.levels [.free]), .move true .step,
    .call .take, .move false .step, .move true .advance, .move false .advance,
    .move false (.latch 0 5), .move true .step, .move false .step]

def pulses : Bool → Circuit := fun _ => pulse

theorem pulseActs_reads :
    ∃ ρ ∈ ((initial pulses (.new true)).run pulses pulseActs).workbench.models,
      ρ 2 = false ∧ ρ 3 = true ∧
      ∀ i, (((initial pulses (.new true)).run pulses pulseActs).unrollings i).Reads (pulses i) ρ
        (mimicAll pulses ρ pulseActs (initial pulses (.new true))
          (fun i => .initial (pulses i)) i) := by
  obtain ⟨hReads, hExtension, -⟩ := reads_concrete_runs pulses true
    (show (initial pulses (.new true)).Admits pulses pulseActs by decide +kernel) rfl
  obtain ⟨ρ, hρ, hα⟩ := hExtension fun v => v == 3
  have hFree : ((initial pulses (.new true)).run pulses pulseActs).workbench.free = [2, 3, 4] := by
    decide +kernel
  rw [hFree] at hα
  exact ⟨ρ, hρ, hα 2 (by decide), hα 3 (by decide), hReads ρ hρ⟩

end Ensemble

end SoftError

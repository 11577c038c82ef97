import Mathlib.Data.Set.Function
import Mathlib.Order.Interval.Set.Basic
import SoftError.Proofs.Encoding.Encoder

/-!
# Encoders define functions

The variables of an encoder are of two kinds. Some are handed out on request and may have any
value. All others are defined by the clauses that come with them. So whatever sequence of calls
is made, the values of the former extend to exactly one model of all clauses, whether or not
these have been taken and whether or not conjunctions are remembered. No literal goes beyond the
variables handed out, so all of them are in range if these are.
-/

namespace SoftError

theorem Lit.apply_eq_of_holds_eq {ρ ρ' : Assignment} {l : Lit} (h : l.holds ρ = l.holds ρ') :
    ρ l.var = ρ' l.var := by
  rw [holds, holds, eval, eval] at h
  cases hSign : l.positive <;> simpa [hSign] using h

theorem Lit.holds_eq_of_eqOn {ρ ρ' : Assignment} {n : Nat} (h : Set.EqOn ρ ρ' (Set.Ico 1 n))
    {l : Lit} (hl : l.var < n) : l.holds ρ = l.holds ρ' :=
  holds_congr (h ⟨l.var_pos, hl⟩)

namespace Encoder

variable {M : Set Assignment} {e e' e'' : Encoder}

/-- The values of the old variables leave no choice for the new ones. -/
def Determines (M : Set Assignment) (e e' : Encoder) : Prop :=
  ∀ ρ ∈ e'.models M, ∀ ρ' ∈ e'.models M, Set.EqOn ρ ρ' (Set.Ico 1 e.nextVar) →
    Set.EqOn ρ ρ' (Set.Ico 1 e'.nextVar)

theorem Determines.refl (M : Set Assignment) (e : Encoder) : Determines M e e :=
  fun _ _ _ _ h => h

theorem Determines.trans (h : Determines M e e') (h' : Determines M e' e'')
    (hSubset : e''.models M ⊆ e'.models M) : Determines M e e'' :=
  fun ρ hρ ρ' hρ' hEq => h' ρ hρ ρ' hρ' (h ρ (hSubset hρ) ρ' (hSubset hρ') hEq)

/-- At most one variable is new, and then it is that of the literal. -/
def Introduces (e : Encoder) (r : Lit × Encoder) : Prop :=
  r.2.nextVar = e.nextVar ∨ r.2.nextVar = e.nextVar + 1 ∧ r.1.var = e.nextVar

theorem Defines.determines {r : Lit × Encoder} {φ : Assignment → Bool} (h : Defines M e r φ)
    (hr : Introduces e r)
    (hφ : ∀ ρ ρ', Set.EqOn ρ ρ' (Set.Ico 1 e.nextVar) → φ ρ = φ ρ') : Determines M e r.2 := by
  intro ρ hρ ρ' hρ' hEq v hv
  rcases hr with hNext | ⟨hNext, hVar⟩
  · rw [hNext] at hv
    exact hEq hv
  · by_cases hOld : v < e.nextVar
    · exact hEq ⟨hv.1, hOld⟩
    · have hNew : v = r.1.var := by
        have := hv.2
        omega
      rw [hNew]
      apply Lit.apply_eq_of_holds_eq
      rw [h.holds ρ hρ, h.holds ρ' hρ', hφ ρ ρ' hEq]

theorem introduces_self (l : Lit) (e : Encoder) : Introduces e (l, e) := .inl rfl

theorem introduces_fresh (e : Encoder) (f : Cnf) : Introduces e (e.fresh.1, e.fresh.2.add f) :=
  .inr ⟨rfl, e.var_fresh⟩

theorem Introduces.neg {l : Lit} (h : Introduces e (l, e')) : Introduces e (-l, e') := by
  rw [Introduces, Lit.var_neg]
  exact h

theorem introduces_and (e : Encoder) (a b : Lit) : Introduces e (e.and a b) := by
  rw [and]
  split
  · exact introduces_self _ e
  · split
    · exact introduces_self _ e
    · split
      · exact introduces_self _ e
      · split
        · exact introduces_self _ e
        · split
          · exact introduces_self _ e
          · exact .inr ⟨rfl, e.var_fresh⟩

theorem introduces_xor (e : Encoder) (a b : Lit) : Introduces e (e.xor a b) := by
  rw [xor]
  iterate 6
    split
    · exact introduces_self _ e
  exact introduces_fresh e _

theorem introduces_flip (e : Encoder) (old f : Lit) : Introduces e (e.flip old f) := by
  rw [flip]
  iterate 2
    split
    · exact introduces_self _ e
  exact introduces_fresh e _

theorem introduces_flipIf (e : Encoder) (old c f : Lit) : Introduces e (e.flipIf old c f) := by
  rw [flipIf]
  split
  · exact introduces_and e c f
  · split
    · exact (introduces_and e c f).neg
    · exact introduces_fresh e _

theorem Valid.determines_differsFrom (h : e.Valid M) (collected : List Lit) {xs ys : List Lit}
    (hxs : ∀ l ∈ xs, l.var < e.nextVar) (hys : ∀ l ∈ ys, l.var < e.nextVar) :
    Determines M e (e.differsFrom collected xs ys).2 ∧
      (e.differsFrom collected xs ys).2.models M ⊆ e.models M := by
  induction xs generalizing e collected ys with
  | nil => exact ⟨.refl M e, subset_rfl⟩
  | cons x xs ih =>
    cases ys with
    | nil => exact ⟨.refl M e, subset_rfl⟩
    | cons y ys =>
      obtain ⟨hx, hxs⟩ := List.forall_mem_cons.mp hxs
      obtain ⟨hy, hys⟩ := List.forall_mem_cons.mp hys
      rcases differsFrom_cons_cases e collected x y xs ys with
        ⟨_, hEq⟩ | ⟨_, hEq⟩ | ⟨d, _, _, hEq⟩ | hEq
      · rw [hEq]
        exact ih h collected hxs hys
      · rw [hEq]
        exact ⟨.refl M e, subset_rfl⟩
      · rw [hEq]
        exact ih h (collected ++ [d]) hxs hys
      · have hDefines := h.defines_difference hx hy
        have hFirst := hDefines.determines (introduces_fresh e _) fun ρ ρ' hEq => by
          rw [Lit.holds_eq_of_eqOn hEq hx, Lit.holds_eq_of_eqOn hEq hy]
        obtain ⟨hRest, hSubset⟩ := ih hDefines.valid (collected ++ [e.fresh.1])
          (fun l hl => lt_of_lt_of_le (hxs l hl) hDefines.le)
          (fun l hl => lt_of_lt_of_le (hys l hl) hDefines.le)
        rw [hEq]
        exact ⟨hFirst.trans hRest hSubset, hSubset.trans hDefines.subset⟩

theorem Valid.clearCache (h : e.Valid M) : e.clearCache.Valid M where
  pinned := h.pinned
  below := h.below
  closed := h.closed
  cached cache hCache a b l hFind := by
    obtain ⟨_, _, rfl⟩ := Option.map_eq_some_iff.mp hCache
    rw [Conjunctions.find?_empty] at hFind
    cases hFind

inductive Call where
  | fresh
  | and (a b : Lit)
  | or (a b : Lit)
  | xor (a b : Lit)
  | flip (old f : Lit)
  | flipIf (old c f : Lit)
  | differs (xs ys : List Lit)
  | take
  | clearCache

namespace Call

def arguments : Call → List Lit
  | fresh | take | clearCache => []
  | and a b | or a b | xor a b | flip a b => [a, b]
  | flipIf old c f => [old, c, f]
  | differs xs ys => xs ++ ys

/-- Vectors that are compared have the same length. -/
def balanced : Call → Bool
  | differs xs ys => xs.length == ys.length
  | _ => true

/-- The arguments are over variables below `n`. -/
def Fits (n : Nat) (call : Call) : Prop :=
  (∀ l ∈ call.arguments, l.var < n) ∧ call.balanced = true

instance (n : Nat) (call : Call) : Decidable (call.Fits n) :=
  inferInstanceAs (Decidable (_ ∧ _))

/-- The literals that a call returns have the value that is meant. -/
def Means (ρ : Assignment) (ls : List Lit) : Call → Prop
  | and a b => ls.map (Lit.holds ρ) = [a.holds ρ && b.holds ρ]
  | or a b => ls.map (Lit.holds ρ) = [a.holds ρ || b.holds ρ]
  | xor a b => ls.map (Lit.holds ρ) = [a.holds ρ ^^ b.holds ρ]
  | flip old f => ls.map (Lit.holds ρ) = [old.holds ρ ^^ f.holds ρ]
  | flipIf old c f => ls.map (Lit.holds ρ) = [old.holds ρ ^^ (c.holds ρ && f.holds ρ)]
  | differs xs ys => (∃ l ∈ ls, l.holds ρ = true) ↔ xs.map (Lit.holds ρ) ≠ ys.map (Lit.holds ρ)
  | fresh | take | clearCache => True

end Call

end Encoder

/-- An encoder with what has come out of it. -/
structure Workbench where
  encoder : Encoder
  /-- The clauses taken so far. -/
  taken : Cnf := []
  /-- The variables handed out on request. -/
  free : List Nat := []

namespace Workbench

/-- All clauses, taken or pending. -/
def emitted (w : Workbench) : Cnf := w.taken ++ w.encoder.pending.toList

def models (w : Workbench) : Set Assignment := {ρ | ρ 1 = false ∧ ρ ∈ w.emitted.models}

/-- The literals that a call returns, and the workbench afterwards. -/
def perform (w : Workbench) : Encoder.Call → List Lit × Workbench
  | .fresh =>
    let (l, encoder) := w.encoder.fresh
    ([l], { w with encoder, free := w.free ++ [l.var] })
  | .and a b => let (l, encoder) := w.encoder.and a b; ([l], { w with encoder })
  | .or a b => let (l, encoder) := w.encoder.or a b; ([l], { w with encoder })
  | .xor a b => let (l, encoder) := w.encoder.xor a b; ([l], { w with encoder })
  | .flip old f => let (l, encoder) := w.encoder.flip old f; ([l], { w with encoder })
  | .flipIf old c f => let (l, encoder) := w.encoder.flipIf old c f; ([l], { w with encoder })
  | .differs xs ys => let (ls, encoder) := w.encoder.differs xs ys; (ls, { w with encoder })
  | .take =>
    let (clauses, encoder) := w.encoder.take
    ([], { w with encoder, taken := w.taken ++ clauses })
  | .clearCache => ([], { w with encoder := w.encoder.clearCache })

/-- What each call of a sequence returns, and the workbench at the end. -/
def run : List Encoder.Call → Workbench → List (Encoder.Call × List Lit) × Workbench
  | [], w => ([], w)
  | call :: calls, w =>
    let (ls, w) := w.perform call
    let (returned, w) := run calls w
    ((call, ls) :: returned, w)

/-- The arguments of each call are constants or over variables handed out before. -/
def Admits : Workbench → List Encoder.Call → Prop
  | _, [] => True
  | w, call :: calls => call.Fits w.encoder.nextVar ∧ Admits (w.perform call).2 calls

instance decidableAdmits :
    (w : Workbench) → (calls : List Encoder.Call) → Decidable (w.Admits calls)
  | _, [] => isTrue trivial
  | w, call :: calls =>
    have := decidableAdmits (w.perform call).2 calls
    inferInstanceAs (Decidable (call.Fits w.encoder.nextVar ∧ (w.perform call).2.Admits calls))

def new (caching : Bool) : Workbench where
  encoder := if caching then .caching else .plain

/-- The models of the clauses that the encoder has handed over. -/
def told (w : Workbench) : Set Assignment := pinned ∩ w.taken.models

theorem models_eq (w : Workbench) : w.models = w.encoder.models w.told := by
  ext ρ
  simp [models, emitted, told, Encoder.models, pinned, Cnf.mem_models_append, and_assoc]

/-- The variables handed out on request may have any values. -/
structure Conservative (w : Workbench) : Prop where
  valid : w.encoder.Valid w.told
  below : w.taken.Below w.encoder.nextVar
  bounded : ∀ v ∈ w.free, v < w.encoder.nextVar
  distinct : w.free.Nodup
  extension : ∀ α : Assignment, ∃ ρ ∈ w.models, ∀ v ∈ w.free, ρ v = α v

/-- They determine the values of all others. -/
def Functional (w : Workbench) : Prop :=
  ∀ ρ ∈ w.models, ∀ ρ' ∈ w.models, (∀ v ∈ w.free, ρ v = ρ' v) →
    Set.EqOn ρ ρ' (Set.Ico 1 w.encoder.nextVar)

variable {w : Workbench} {e : Encoder}

theorem Conservative.extend (h : Conservative w) (he : Encoder.Extends w.told w.encoder e) :
    Conservative { w with encoder := e } := by
  refine ⟨he.valid, h.below.mono he.le, fun v hv => lt_of_lt_of_le (h.bounded v hv) he.le,
    h.distinct, fun α => ?_⟩
  obtain ⟨ρ, hρ, hα⟩ := h.extension α
  rw [models_eq] at hρ
  obtain ⟨ρ', hρ', hAgree⟩ := he.lift ρ hρ
  refine ⟨ρ', ?_, fun v hv => ?_⟩
  · rw [models_eq]
    exact hρ'
  · rw [← hAgree v (h.bounded v hv), hα v hv]

theorem models_subset (he : Encoder.Extends w.told w.encoder e) :
    { w with encoder := e }.models ⊆ w.models := by
  rw [models_eq, models_eq]
  exact he.subset

theorem Functional.determine (h : Functional w) (he : Encoder.Extends w.told w.encoder e)
    (hDetermines : Encoder.Determines w.told w.encoder e) :
    Functional { w with encoder := e } := by
  intro ρ hρ ρ' hρ' hEq
  have hOld := h ρ (models_subset he hρ) ρ' (models_subset he hρ') hEq
  rw [models_eq] at hρ hρ'
  exact hDetermines ρ hρ ρ' hρ' hOld

/-- What a call does to a workbench in which nothing is wrong. -/
structure Advances (w : Workbench) (call : Encoder.Call) (r : List Lit × Workbench) : Prop where
  conservative : Conservative r.2
  functional : Functional w → Functional r.2
  le : w.encoder.nextVar ≤ r.2.encoder.nextVar
  bounded : ∀ l ∈ r.1, l.var < r.2.encoder.nextVar
  subset : r.2.models ⊆ w.models
  means : ∀ ρ ∈ r.2.models, call.Means ρ r.1

section Calls

variable (h : Conservative w)
include h

theorem Conservative.gate {call : Encoder.Call} {r : Lit × Encoder} {φ : Assignment → Bool}
    (hr : Encoder.Defines w.told w.encoder r φ) (hNew : Encoder.Introduces w.encoder r)
    (hφ : ∀ ρ ρ', Set.EqOn ρ ρ' (Set.Ico 1 w.encoder.nextVar) → φ ρ = φ ρ')
    (hMeans : ∀ ρ, [r.1].map (Lit.holds ρ) = [φ ρ] → call.Means ρ [r.1]) :
    Advances w call ([r.1], { w with encoder := r.2 }) where
  conservative := h.extend hr.toExtends
  functional hw := hw.determine hr.toExtends (hr.determines hNew hφ)
  le := hr.le
  bounded := List.forall_mem_singleton.mpr hr.bounded
  subset := models_subset hr.toExtends
  means ρ hρ := by
    rw [models_eq] at hρ
    exact hMeans ρ (congrArg (fun b => [b]) (hr.holds ρ hρ))

theorem Conservative.fresh : Advances w .fresh (w.perform .fresh) where
  conservative := by
    refine ⟨h.valid.fresh, h.below.mono (Nat.le_succ _), fun v hv => ?_, ?_, fun α => ?_⟩
    · rcases List.mem_append.mp hv with hv | hv
      · exact Nat.lt_succ_of_lt (h.bounded v hv)
      · rw [List.mem_singleton.mp hv]
        exact w.encoder.var_fresh_lt
    · refine List.nodup_append.mpr ⟨h.distinct, List.pairwise_singleton _ _, fun v hv u hu => ?_⟩
      have hVar := (List.mem_singleton.mp hu).trans w.encoder.var_fresh
      rw [hVar]
      exact (h.bounded v hv).ne
    · obtain ⟨ρ, hρ, hα⟩ := h.extension α
      rw [models_eq] at hρ
      refine ⟨Function.update ρ w.encoder.nextVar (α w.encoder.nextVar), ?_, fun v hv => ?_⟩
      · rw [models_eq]
        exact h.valid.update_mem hρ _
      · rcases List.mem_append.mp hv with hv | hv
        · rw [Function.update_of_ne (Nat.ne_of_lt (h.bounded v hv)), hα v hv]
        · obtain rfl := (List.mem_singleton.mp hv).trans w.encoder.var_fresh
          rw [Function.update_self]
  functional hw ρ hρ ρ' hρ' hEq v hv := by
    by_cases hOld : v < w.encoder.nextVar
    · exact hw ρ hρ ρ' hρ' (fun u hu => hEq u (List.mem_append_left _ hu)) ⟨hv.1, hOld⟩
    · have hLt : v < w.encoder.nextVar + 1 := hv.2
      have hNew : v = w.encoder.fresh.1.var := by
        rw [Encoder.var_fresh]
        omega
      exact hEq v (List.mem_append_right _ (List.mem_singleton.mpr hNew))
  le := Nat.le_succ _
  bounded := List.forall_mem_singleton.mpr w.encoder.var_fresh_lt
  subset := subset_rfl
  means _ _ := trivial

theorem Conservative.differs {xs ys : List Lit} (hLength : xs.length = ys.length)
    (hxs : ∀ l ∈ xs, l.var < w.encoder.nextVar) (hys : ∀ l ∈ ys, l.var < w.encoder.nextVar) :
    Advances w (.differs xs ys) (w.perform (.differs xs ys)) := by
  have hTells := h.valid.differs hLength hxs hys
  refine ⟨h.extend hTells.toExtends, fun hw => ?_, hTells.le, hTells.bounded,
    models_subset hTells.toExtends, fun ρ hρ => ?_⟩
  · exact hw.determine hTells.toExtends (h.valid.determines_differsFrom [] hxs hys).1
  · rw [models_eq] at hρ
    have hIff := hTells.models ρ hρ
    rw [Clause.mem_models, Clause.mem_models] at hIff
    simpa [Encoder.Call.Means, perform] using hIff

theorem Conservative.take : Advances w .take (w.perform .take) := by
  have hModels : (w.perform .take).2.models = w.models := by
    simp [models, perform, emitted, Encoder.take]
  have hTold : (w.perform .take).2.told = w.told ∩ Cnf.models w.encoder.take.1 := by
    ext ρ
    simp [told, perform, Cnf.mem_models_append, and_assoc]
  refine ⟨⟨?_, h.below.append h.valid.below, h.bounded, h.distinct, ?_⟩, fun hw => ?_, le_rfl,
    List.forall_mem_nil _, hModels.subset, fun _ _ => trivial⟩
  · rw [hTold]
    exact h.valid.take
  · rw [hModels]
    exact h.extension
  · rw [Functional, hModels]
    exact hw

theorem Conservative.clearCache : Advances w .clearCache (w.perform .clearCache) where
  conservative := ⟨h.valid.clearCache, h.below, h.bounded, h.distinct, h.extension⟩
  functional hw := hw
  le := le_rfl
  bounded := List.forall_mem_nil _
  subset := subset_rfl
  means _ _ := trivial

theorem Conservative.perform {call : Encoder.Call} (hFits : call.Fits w.encoder.nextVar) :
    Advances w call (w.perform call) := by
  obtain ⟨hArguments, hBalanced⟩ := hFits
  cases call with
  | fresh => exact h.fresh
  | take => exact h.take
  | clearCache => exact h.clearCache
  | differs xs ys =>
    obtain ⟨hxs, hys⟩ := List.forall_mem_append.mp hArguments
    exact h.differs (beq_iff_eq.mp hBalanced) hxs hys
  | and a b =>
    obtain ⟨ha, hb⟩ : a.var < _ ∧ b.var < _ := by simpa [Encoder.Call.arguments] using hArguments
    refine h.gate (h.valid.and ha hb) (w.encoder.introduces_and a b) (fun ρ ρ' hEq => ?_)
      fun _ => id
    rw [Lit.holds_eq_of_eqOn hEq ha, Lit.holds_eq_of_eqOn hEq hb]
  | or a b =>
    obtain ⟨ha, hb⟩ : a.var < _ ∧ b.var < _ := by simpa [Encoder.Call.arguments] using hArguments
    refine h.gate (h.valid.or ha hb) (w.encoder.introduces_and (-a) (-b)).neg (fun ρ ρ' hEq => ?_)
      fun _ => id
    rw [Lit.holds_eq_of_eqOn hEq ha, Lit.holds_eq_of_eqOn hEq hb]
  | xor a b =>
    obtain ⟨ha, hb⟩ : a.var < _ ∧ b.var < _ := by simpa [Encoder.Call.arguments] using hArguments
    refine h.gate (h.valid.xor ha hb) (w.encoder.introduces_xor a b) (fun ρ ρ' hEq => ?_)
      fun _ => id
    rw [Lit.holds_eq_of_eqOn hEq ha, Lit.holds_eq_of_eqOn hEq hb]
  | flip old f =>
    obtain ⟨hOld, hf⟩ : old.var < _ ∧ f.var < _ := by
      simpa [Encoder.Call.arguments] using hArguments
    refine h.gate (h.valid.flip hOld hf) (w.encoder.introduces_flip old f) (fun ρ ρ' hEq => ?_)
      fun _ => id
    rw [Lit.holds_eq_of_eqOn hEq hOld, Lit.holds_eq_of_eqOn hEq hf]
  | flipIf old c f =>
    obtain ⟨hOld, hc, hf⟩ : old.var < _ ∧ c.var < _ ∧ f.var < _ := by
      simpa [Encoder.Call.arguments] using hArguments
    refine h.gate (h.valid.flipIf hOld hf hc) (w.encoder.introduces_flipIf old c f)
      (fun ρ ρ' hEq => ?_) fun _ => id
    rw [Lit.holds_eq_of_eqOn hEq hOld, Lit.holds_eq_of_eqOn hEq hc, Lit.holds_eq_of_eqOn hEq hf]

end Calls

theorem conservative_new (caching : Bool) : Conservative (new caching) := by
  have hTold : (new caching).told = pinned := by
    ext ρ
    simp [told, new, Cnf.mem_models]
  have hPending : (new caching).encoder.pending = #[] := by cases caching <;> rfl
  refine ⟨?_, List.forall_mem_nil _, fun v hv => (List.not_mem_nil hv).elim, List.nodup_nil,
    fun _ => ⟨fun _ => false, ?_, fun v hv => (List.not_mem_nil hv).elim⟩⟩
  · rw [hTold]
    refine Encoder.valid_empty hPending fun cache hCache => ?_
    cases caching with
    | false => cases hCache
    | true => exact (Option.some.inj hCache).symm
  · rw [models_eq, hTold, Encoder.models_eq_of_pending hPending]
    rfl

theorem functional_new (caching : Bool) : Functional (new caching) := by
  intro ρ hρ ρ' hρ' _ v hv
  -- only the constant is there
  obtain rfl : v = 1 := by
    have hLt : v < (new caching).encoder.nextVar := hv.2
    have hNext : (new caching).encoder.nextVar = 2 := by cases caching <;> rfl
    have := hv.1
    omega
  exact hρ.1.trans hρ'.1.symm

theorem Conservative.run (h : Conservative w) (hFunctional : Functional w)
    {calls : List Encoder.Call} (hAdmits : w.Admits calls) :
    Conservative (run calls w).2 ∧ Functional (run calls w).2 ∧
      (Workbench.run calls w).2.models ⊆ w.models ∧
      ∀ ρ ∈ (Workbench.run calls w).2.models, ∀ r ∈ (Workbench.run calls w).1, r.1.Means ρ r.2 := by
  induction calls generalizing w with
  | nil => exact ⟨h, hFunctional, subset_rfl, fun _ _ r hr => (List.not_mem_nil hr).elim⟩
  | cons call calls ih =>
    have hCall := h.perform hAdmits.1
    obtain ⟨hLast, hLastFunctional, hSubset, hMeans⟩ :=
      ih hCall.conservative (hCall.functional hFunctional) hAdmits.2
    refine ⟨hLast, hLastFunctional, hSubset.trans hCall.subset, fun ρ hρ r hr => ?_⟩
    rcases List.mem_cons.mp hr with rfl | hr
    · exact hCall.means ρ (hSubset hρ)
    · exact hMeans ρ hρ r hr

theorem Conservative.bounded_run (h : Conservative w) {calls : List Encoder.Call}
    (hAdmits : w.Admits calls) :
    w.encoder.nextVar ≤ (Workbench.run calls w).2.encoder.nextVar ∧
      ∀ r ∈ (Workbench.run calls w).1, ∀ l ∈ r.2,
        l.var < (Workbench.run calls w).2.encoder.nextVar := by
  induction calls generalizing w with
  | nil => exact ⟨le_rfl, fun r hr => (List.not_mem_nil hr).elim⟩
  | cons call calls ih =>
    have hCall := h.perform hAdmits.1
    obtain ⟨hLe, hBounded⟩ := ih hCall.conservative hAdmits.2
    refine ⟨hCall.le.trans hLe, List.forall_mem_cons.mpr ⟨fun l hl => ?_, hBounded⟩⟩
    exact lt_of_lt_of_le (hCall.bounded l hl) hLe

theorem Conservative.inRange (h : Conservative w) (hRange : w.encoder.InRange) :
    w.emitted.InRange :=
  (h.below.append h.valid.below).inRange hRange

/-- The variables handed out on request may have any values, and these extend in exactly one
way to the other variables. All literals are in range as long as no variable is too large. -/
theorem existsUnique_extension (caching : Bool) {calls : List Encoder.Call}
    {returned : List (Encoder.Call × List Lit)} {w : Workbench}
    (hAdmits : (new caching).Admits calls)
    (hRun : run calls (new caching) = (returned, w)) :
    w.free.Nodup ∧
    (∀ α : Assignment, ∃ ρ ∈ w.models, (∀ v ∈ w.free, ρ v = α v) ∧
      ∀ ρ' ∈ w.models, (∀ v ∈ w.free, ρ' v = α v) →
        ∀ v, 1 ≤ v → v < w.encoder.nextVar → ρ' v = ρ v) ∧
    (∀ ρ ∈ w.models, ∀ r ∈ returned, r.1.Means ρ r.2) ∧
    (w.encoder.InRange → w.emitted.InRange ∧ ∀ r ∈ returned, ∀ l ∈ r.2, l.InRange) := by
  obtain ⟨hConservative, hFunctional, -, hMeans⟩ :=
    (conservative_new caching).run (functional_new caching) hAdmits
  have hBounded := ((conservative_new caching).bounded_run hAdmits).2
  rw [hRun] at hConservative hFunctional hMeans hBounded
  refine ⟨hConservative.distinct, fun α => ?_, hMeans, fun hRange =>
    ⟨hConservative.inRange hRange, fun r hr l hl => hRange.lit (hBounded r hr l hl)⟩⟩
  obtain ⟨ρ, hρ, hα⟩ := hConservative.extension α
  refine ⟨ρ, hρ, hα, fun ρ' hρ' hα' v hPos hLt => ?_⟩
  exact hFunctional ρ' hρ' ρ hρ (fun u hu => (hα' u hu).trans (hα u hu).symm) ⟨hPos, hLt⟩

def mixedCalls : List Encoder.Call :=
  let x := Lit.ofVar 2 (by decide)
  let y := Lit.ofVar 3 (by decide)
  [.fresh, .fresh, .xor x (-y), .and x y, .take, .or (-x) (-y), .clearCache, .flipIf x .top y,
    .differs [x, y] [y, .bot]]

theorem existsUnique_extension_mixedCalls :
    ∃ ρ ∈ (run mixedCalls (new true)).2.models, ρ 2 = true ∧ ρ 3 = false ∧
      ∀ r ∈ (run mixedCalls (new true)).1, r.1.Means ρ r.2 := by
  obtain ⟨-, hExtension, hMeans, -⟩ :=
    existsUnique_extension true (show (new true).Admits mixedCalls by decide +kernel)
      Prod.mk.eta.symm
  obtain ⟨ρ, hρ, hα, -⟩ := hExtension fun v => v == 2
  have hFree : (run mixedCalls (new true)).2.free = [2, 3] := by decide +kernel
  rw [hFree] at hα
  exact ⟨ρ, hρ, hα 2 (by decide), hα 3 (by decide), hMeans ρ hρ⟩

end Workbench

end SoftError

import Mathlib.Logic.Function.Basic
import SoftError.Encoding.Encoder
import SoftError.Proofs.Formula.Models

/-!
# What an encoder's clauses mean

The clauses handed over so far are known through the set `M` of their models; the pending
ones restrict it further. An encoder is valid for `M` if nothing in force depends on a
variable that has not been handed out, and if every remembered conjunction is one. So its clauses
are in range as long as its variables are. An
operation that defines a literal keeps every model, up to the values of the new variables.
-/

namespace SoftError

def AgreeBelow (n : Nat) (ρ ρ' : Assignment) : Prop := ∀ v < n, ρ v = ρ' v

namespace AgreeBelow

variable {n m : Nat} {ρ ρ' ρ'' : Assignment}

theorem refl (n : Nat) (ρ : Assignment) : AgreeBelow n ρ ρ := fun _ _ => rfl

theorem trans (h : AgreeBelow n ρ ρ') (h' : AgreeBelow n ρ' ρ'') : AgreeBelow n ρ ρ'' :=
  fun v hv => (h v hv).trans (h' v hv)

theorem mono (h : AgreeBelow n ρ ρ') (hm : m ≤ n) : AgreeBelow m ρ ρ' :=
  fun v hv => h v (lt_of_lt_of_le hv hm)

theorem holds (h : AgreeBelow n ρ ρ') {l : Lit} (hl : l.var < n) : l.holds ρ = l.holds ρ' :=
  Lit.holds_congr (h _ hl)

theorem map_holds (h : AgreeBelow n ρ ρ') {ls : List Lit} (hls : ∀ l ∈ ls, l.var < n) :
    ls.map (Lit.holds ρ) = ls.map (Lit.holds ρ') :=
  List.map_congr_left fun l hl => h.holds (hls l hl)

theorem meets (h : AgreeBelow n ρ ρ') {ls : List Lit} (hls : ∀ l ∈ ls, l.var < n)
    (hMeets : Meets ρ ls) : Meets ρ' ls := by
  intro l hl
  rw [← h.holds (hls l hl)]
  exact hMeets l hl

theorem update (n : Nat) (ρ : Assignment) (b : Bool) : AgreeBelow n ρ (Function.update ρ n b) := by
  intro v hv
  rw [Function.update_of_ne (Nat.ne_of_lt hv)]

end AgreeBelow

/-- All literals of the clauses are over variables below `n`. -/
def Cnf.Below (n : Nat) (f : Cnf) : Prop := ∀ c ∈ f, ∀ l ∈ c, l.var < n

theorem Cnf.Below.models {n : Nat} {f : Cnf} (h : f.Below n) {ρ ρ' : Assignment}
    (hAgree : AgreeBelow n ρ ρ') (hρ : ρ ∈ f.models) : ρ' ∈ f.models := by
  exact (Cnf.mem_models_congr fun c hc l hl => hAgree l.var (h c hc l hl)).mp hρ

theorem Cnf.Below.mono {n m : Nat} {f : Cnf} (h : f.Below n) (hm : n ≤ m) : f.Below m :=
  fun c hc l hl => lt_of_lt_of_le (h c hc l hl) hm

theorem Cnf.Below.append {n : Nat} {f g : Cnf} (hf : f.Below n) (hg : g.Below n) :
    Cnf.Below n (f ++ g) :=
  List.forall_mem_append.mpr ⟨hf, hg⟩

theorem Encoder.InRange.lit {e : Encoder} (h : e.InRange) {l : Lit} (hl : l.var < e.nextVar) :
    l.InRange :=
  Nat.le_of_lt_succ (lt_of_lt_of_le hl h)

theorem Cnf.Below.inRange {n : Nat} {f : Cnf} (h : f.Below n) (hn : n ≤ Lit.maxVar + 1) :
    f.InRange :=
  fun c hc l hl => Nat.le_of_lt_succ (lt_of_lt_of_le (h c hc l hl) hn)

namespace VarPool

theorem var_fresh (p : VarPool) : p.fresh.1.var = p.next :=
  Lit.var_ofVar p.next (Nat.ne_of_gt (Nat.lt_of_lt_of_le Nat.two_pos p.two_le))

theorem holds_fresh (p : VarPool) (ρ : Assignment) : p.fresh.1.holds ρ = ρ p.next :=
  Lit.holds_ofVar ρ p.next (Nat.ne_of_gt (Nat.lt_of_lt_of_le Nat.two_pos p.two_le))

theorem next_freshList (p : VarPool) (n : Nat) : (p.freshList n).2.next = p.next + n := by
  induction n generalizing p with
  | zero => rfl
  | succ n ih =>
    change (p.fresh.2.freshList n).2.next = _
    rw [ih]
    change p.next + 1 + n = _
    omega

theorem map_var_freshList (p : VarPool) (n : Nat) :
    (p.freshList n).1.map Lit.var = List.range' p.next n := by
  induction n generalizing p with
  | zero => rfl
  | succ n ih =>
    change p.fresh.1.var :: (p.fresh.2.freshList n).1.map Lit.var = _
    rw [ih, var_fresh, List.range'_succ]
    rfl

theorem map_holds_freshList (p : VarPool) (n : Nat) (ρ : Assignment) :
    (p.freshList n).1.map (Lit.holds ρ) = (List.range' p.next n).map ρ := by
  induction n generalizing p with
  | zero => rfl
  | succ n ih =>
    change p.fresh.1.holds ρ :: (p.fresh.2.freshList n).1.map (Lit.holds ρ) = _
    rw [ih, holds_fresh, List.range'_succ, List.map_cons]
    rfl

theorem length_freshList (p : VarPool) (n : Nat) : (p.freshList n).1.length = n := by
  rw [← List.length_map (f := Lit.var), map_var_freshList, List.length_range']

end VarPool

namespace Encoder

/-- The assignments that satisfy what has been handed over and what is pending. -/
def models (M : Set Assignment) (e : Encoder) : Set Assignment := M ∩ Cnf.models e.pending.toList

structure Valid (M : Set Assignment) (e : Encoder) : Prop where
  pinned : M ⊆ pinned
  below : Cnf.Below e.nextVar e.pending.toList
  closed : ∀ ρ ∈ e.models M, ∀ ρ', AgreeBelow e.nextVar ρ ρ' → ρ' ∈ e.models M
  cached : ∀ cache, e.cache = some cache → ∀ a b l, cache.find? a b = some l →
    l.var < e.nextVar ∧ ∀ ρ ∈ e.models M, l.holds ρ = (a.holds ρ && b.holds ρ)

structure Extends (M : Set Assignment) (e e' : Encoder) : Prop where
  valid : e'.Valid M
  le : e.nextVar ≤ e'.nextVar
  subset : e'.models M ⊆ e.models M
  lift : ∀ ρ ∈ e.models M, ∃ ρ' ∈ e'.models M, AgreeBelow e.nextVar ρ ρ'
  plain : e.cache = none → e'.cache = none

/-- The literal stands for `φ`. -/
structure Defines (M : Set Assignment) (e : Encoder) (r : Lit × Encoder) (φ : Assignment → Bool) :
    Prop extends Extends M e r.2 where
  bounded : r.1.var < r.2.nextVar
  holds : ∀ ρ ∈ r.2.models M, r.1.holds ρ = φ ρ

variable {M : Set Assignment} {e e' e'' : Encoder}

theorem Valid.mem_pinned (h : e.Valid M) {ρ : Assignment} (hρ : ρ ∈ e.models M) :
    ρ ∈ SoftError.pinned := h.pinned hρ.1

theorem valid_empty (hPending : e.pending = #[]) (hCache : ∀ cache, e.cache = some cache →
    cache = {}) : e.Valid SoftError.pinned := by
  refine ⟨subset_rfl, ?_, fun ρ hρ ρ' hAgree => ⟨?_, ?_⟩, fun cache hSome a b l hFind => ?_⟩
  · rw [hPending]
    exact List.forall_mem_nil _
  · change ρ' 1 = false
    rw [← hAgree 1 e.pool.two_le]
    exact hρ.1
  · rw [hPending]
    rfl
  · rw [hCache cache hSome, Conjunctions.find?_empty] at hFind
    cases hFind

theorem Extends.refl (h : e.Valid M) : Extends M e e :=
  ⟨h, le_rfl, subset_rfl, fun ρ hρ => ⟨ρ, hρ, .refl _ _⟩, id⟩

theorem Extends.trans (h : Extends M e e') (h' : Extends M e' e'') : Extends M e e'' := by
  refine ⟨h'.valid, h.le.trans h'.le, h'.subset.trans h.subset, fun ρ hρ => ?_,
    fun hNone => h'.plain (h.plain hNone)⟩
  obtain ⟨ρ', hρ', hAgree⟩ := h.lift ρ hρ
  obtain ⟨ρ'', hρ'', hAgree'⟩ := h'.lift ρ' hρ'
  exact ⟨ρ'', hρ'', hAgree.trans (hAgree'.mono h.le)⟩

theorem two_le_nextVar (e : Encoder) : 2 ≤ e.nextVar := e.pool.two_le

theorem var_lt_of_isConstant {l : Lit} (h : l.isConstant = true) (e : Encoder) :
    l.var < e.nextVar := by
  have hVar : l.var = 1 := beq_iff_eq.mp h
  have := e.two_le_nextVar
  omega

section Add

theorem pending_add (e : Encoder) (f : Cnf) :
    (e.add f).pending.toList = e.pending.toList ++ f := Array.toList_appendList

theorem models_add (M : Set Assignment) (e : Encoder) (f : Cnf) :
    (e.add f).models M = e.models M ∩ f.models := by
  ext ρ
  simp only [models, pending_add, Set.mem_inter_iff, Cnf.mem_models_append,
    and_assoc]

/-- A constraint on the variables handed out. -/
theorem Valid.add (h : e.Valid M) {f : Cnf} (hf : f.Below e.nextVar) : (e.add f).Valid M where
  pinned := h.pinned
  below := by
    rw [pending_add]
    exact h.below.append hf
  closed ρ hρ ρ' hAgree := by
    rw [models_add] at hρ ⊢
    exact ⟨h.closed ρ hρ.1 ρ' hAgree, hf.models hAgree hρ.2⟩
  cached cache hCache a b l hFind := by
    obtain ⟨hVar, hHolds⟩ := h.cached cache hCache a b l hFind
    refine ⟨hVar, fun ρ hρ => hHolds ρ ?_⟩
    rw [models_add] at hρ
    exact hρ.1

theorem mem_models_addLow {l : Lit} {ρ : Assignment} :
    ρ ∈ (e.add [[-l]]).models M ↔ ρ ∈ e.models M ∧ l.holds ρ = false := by
  rw [models_add, Set.mem_inter_iff]
  simp [Cnf.mem_models, Clause.mem_models]

theorem Valid.addLow (h : e.Valid M) {l : Lit} (hl : l.var < e.nextVar) :
    (e.add [[-l]]).Valid M := by
  refine h.add fun c hc k hk => ?_
  rw [List.mem_singleton.mp hc, List.mem_singleton] at hk
  rwa [hk, Lit.var_neg]

/-- Makes a literal low, unless it is a constant. -/
def keepLow (l : Lit) (e : Encoder) : Encoder := if l.isConstant then e else e.add [[-l]]

theorem keepLow_of_ne_top {l : Lit} (h : l ≠ .top) (e : Encoder) :
    e.keepLow l = if l = .bot then e else e.add [[-l]] := by
  have hConstant : l.isConstant = true ↔ l = .bot := by
    rw [Lit.isConstant_iff, or_iff_left h]
  rw [keepLow]
  exact ite_congr (propext hConstant) (fun _ => rfl) fun _ => rfl

theorem nextVar_keepLow (l : Lit) (e : Encoder) : (e.keepLow l).nextVar = e.nextVar := by
  rw [keepLow]
  split <;> rfl

theorem cache_keepLow (l : Lit) (e : Encoder) : (e.keepLow l).cache = e.cache := by
  rw [keepLow]
  split <;> rfl

theorem mem_models_keepLow {l : Lit} {ρ : Assignment} :
    ρ ∈ (e.keepLow l).models M ↔
      ρ ∈ e.models M ∧ (l.isConstant = false → l.holds ρ = false) := by
  rw [keepLow]
  cases hl : l.isConstant with
  | true => simp
  | false =>
    rw [if_neg Bool.false_ne_true, mem_models_addLow]
    simp

theorem Valid.mem_models_keepLow (h : e.Valid M) {l : Lit} (hl : l ≠ .top) {ρ : Assignment} :
    ρ ∈ (e.keepLow l).models M ↔ ρ ∈ e.models M ∧ l.holds ρ = false := by
  rw [Encoder.mem_models_keepLow]
  refine and_congr_right fun hρ => ⟨fun hLow => ?_, fun hLow _ => hLow⟩
  cases hConstant : l.isConstant with
  | false => exact hLow hConstant
  | true =>
    obtain rfl := ((Lit.isConstant_iff l).mp hConstant).resolve_right hl
    exact holds_bot (h.mem_pinned hρ)

theorem Valid.keepLow (h : e.Valid M) {l : Lit} (hl : l.var < e.nextVar) :
    (e.keepLow l).Valid M := by
  rw [Encoder.keepLow]
  split
  · exact h
  · exact h.addLow hl

end Add

section Take

theorem models_take (M : Set Assignment) (e : Encoder) :
    e.take.2.models (M ∩ Cnf.models e.take.1) = e.models M := by
  ext ρ
  simp [models, take, Cnf.mem_models]

theorem models_eq_of_pending (h : e.pending = #[]) : e.models M = M := by
  ext ρ
  simp [models, h, Cnf.mem_models]

theorem Valid.take (h : e.Valid M) : e.take.2.Valid (M ∩ Cnf.models e.take.1) where
  pinned := Set.inter_subset_left.trans h.pinned
  below := List.forall_mem_nil _
  closed ρ hρ ρ' hAgree := by
    rw [models_take] at hρ ⊢
    exact h.closed ρ hρ ρ' hAgree
  cached cache hCache a b l hFind := by
    rw [models_take]
    exact h.cached cache hCache a b l hFind

/-- A constraint on the variables handed out that does not pass through the encoder. -/
theorem Valid.inter (h : e.Valid M) {X : Set Assignment}
    (hX : ∀ ρ ∈ X, ∀ ρ', AgreeBelow e.nextVar ρ ρ' → ρ' ∈ X) : e.Valid (M ∩ X) where
  pinned := Set.inter_subset_left.trans h.pinned
  below := h.below
  closed := by
    rintro ρ ⟨⟨hM, hX'⟩, hPending⟩ ρ' hAgree
    obtain ⟨hM', hPending'⟩ := h.closed ρ ⟨hM, hPending⟩ ρ' hAgree
    exact ⟨⟨hM', hX ρ hX' ρ' hAgree⟩, hPending'⟩
  cached cache hCache a b l hFind := by
    obtain ⟨hVar, hHolds⟩ := h.cached cache hCache a b l hFind
    exact ⟨hVar, fun ρ hρ => hHolds ρ ⟨hρ.1.1, hρ.2⟩⟩

end Take

section Fresh

theorem var_fresh (e : Encoder) : e.fresh.1.var = e.nextVar := e.pool.var_fresh

theorem var_fresh_lt (e : Encoder) : e.fresh.1.var < e.nextVar + 1 :=
  e.var_fresh.trans_lt (Nat.lt_succ_self _)

theorem nextVar_fresh (e : Encoder) : e.fresh.2.nextVar = e.nextVar + 1 := rfl

theorem holds_fresh (e : Encoder) (ρ : Assignment) : e.fresh.1.holds ρ = ρ e.nextVar :=
  e.pool.holds_fresh ρ

theorem models_fresh (M : Set Assignment) (e : Encoder) : e.fresh.2.models M = e.models M := rfl

/-- A fresh variable may have either value. -/
theorem Valid.update_mem (h : e.Valid M) {ρ : Assignment} (hρ : ρ ∈ e.models M) (b : Bool) :
    Function.update ρ e.nextVar b ∈ e.models M :=
  h.closed ρ hρ _ (.update _ ρ b)

theorem Valid.fresh (h : e.Valid M) : e.fresh.2.Valid M where
  pinned := h.pinned
  below := h.below.mono (Nat.le_succ _)
  closed ρ hρ ρ' hAgree := h.closed ρ hρ ρ' (hAgree.mono (Nat.le_succ _))
  cached cache hCache a b l hFind := by
    obtain ⟨hVar, hHolds⟩ := h.cached cache hCache a b l hFind
    exact ⟨Nat.lt_succ_of_lt hVar, hHolds⟩

theorem Valid.fresh_extends (h : e.Valid M) : Extends M e e.fresh.2 :=
  ⟨h.fresh, Nat.le_succ _, subset_rfl, fun ρ hρ => ⟨ρ, hρ, .refl _ _⟩, id⟩

theorem models_freshList (M : Set Assignment) (e : Encoder) (n : Nat) :
    (e.freshList n).2.models M = e.models M := rfl

theorem Valid.freshList_extends (h : e.Valid M) (n : Nat) : Extends M e (e.freshList n).2 := by
  have hLe : e.nextVar ≤ (e.freshList n).2.nextVar := by
    change e.pool.next ≤ (e.pool.freshList n).2.next
    rw [VarPool.next_freshList]
    exact Nat.le_add_right _ _
  refine ⟨⟨h.pinned, h.below.mono hLe, fun ρ hρ ρ' hAgree => h.closed ρ hρ ρ' (hAgree.mono hLe),
    ?_⟩, hLe, subset_rfl, fun ρ hρ => ⟨ρ, hρ, .refl _ _⟩, id⟩
  intro cache hCache a b l hFind
  obtain ⟨hVar, hHolds⟩ := h.cached cache hCache a b l hFind
  exact ⟨lt_of_lt_of_le hVar hLe, hHolds⟩

/-- Fresh variables may have any values. -/
theorem Valid.exists_freshList (h : e.Valid M) {ρ : Assignment} (hρ : ρ ∈ e.models M)
    (bs : List Bool) : ∃ ρ' ∈ (e.freshList bs.length).2.models M, AgreeBelow e.nextVar ρ ρ' ∧
      (e.freshList bs.length).1.map (Lit.holds ρ') = bs := by
  let ρ' : Assignment := fun v => if v < e.nextVar then ρ v else bs.getD (v - e.nextVar) false
  have hAgree : AgreeBelow e.nextVar ρ ρ' := fun v hv => (if_pos hv).symm
  refine ⟨ρ', h.closed ρ hρ ρ' hAgree, hAgree, ?_⟩
  refine (e.pool.map_holds_freshList bs.length ρ').trans (List.ext_getElem (by simp) ?_)
  intro i _ hi
  have hNot : ¬ e.pool.next + i < e.nextVar := Nat.not_lt.mpr (Nat.le_add_right _ _)
  rw [List.getElem_map, List.getElem_range', Nat.one_mul]
  change (if e.pool.next + i < e.nextVar then _ else bs.getD (e.pool.next + i - e.pool.next) _) = _
  rw [if_neg hNot, Nat.add_sub_cancel_left, List.getD_eq_getElem?_getD,
    List.getElem?_eq_getElem hi, Option.getD_some]

end Fresh

section Define

theorem Valid.defines_self (h : e.Valid M) {l : Lit} {φ : Assignment → Bool}
    (hl : l.var < e.nextVar) (hφ : ∀ ρ ∈ e.models M, l.holds ρ = φ ρ) : Defines M e (l, e) φ :=
  ⟨.refl h, hl, hφ⟩

/-- A fresh literal with clauses that say what it stands for. -/
theorem Valid.defines_fresh (h : e.Valid M) {f : Cnf} {φ : Assignment → Bool}
    (hBelow : f.Below (e.nextVar + 1)) (hφ : ∀ ρ ρ', AgreeBelow e.nextVar ρ ρ' → φ ρ = φ ρ')
    (hf : ∀ ρ ∈ SoftError.pinned, ρ ∈ f.models ↔ e.fresh.1.holds ρ = φ ρ) :
    Defines M e (e.fresh.1, e.fresh.2.add f) φ := by
  have hModels : ∀ ρ, ρ ∈ (e.fresh.2.add f).models M ↔
      ρ ∈ e.models M ∧ ρ e.nextVar = φ ρ := by
    intro ρ
    rw [models_add, models_fresh, Set.mem_inter_iff]
    refine and_congr_right fun hρ => ?_
    rw [hf ρ (h.mem_pinned hρ), holds_fresh]
  have hMem : ∀ ρ ∈ (e.fresh.2.add f).models M, ρ ∈ e.models M := fun ρ hρ =>
    ((hModels ρ).mp hρ).1
  refine ⟨⟨⟨h.pinned, ?_, ?_, ?_⟩, Nat.le_succ _, hMem, ?_, id⟩, ?_, ?_⟩
  · rw [pending_add]
    exact h.fresh.below.append hBelow
  · intro ρ hρ ρ' hAgree
    obtain ⟨hρ, hValue⟩ := (hModels ρ).mp hρ
    have hOld := hAgree.mono (Nat.le_succ e.nextVar)
    refine (hModels ρ').mpr ⟨h.closed ρ hρ ρ' hOld, ?_⟩
    have hNew : ρ e.nextVar = ρ' e.nextVar := hAgree _ (Nat.lt_succ_self _)
    rw [← hNew, hValue, hφ ρ ρ' hOld]
  · intro cache hCache a b l hFind
    obtain ⟨hVar, hHolds⟩ := h.cached cache hCache a b l hFind
    exact ⟨Nat.lt_succ_of_lt hVar, fun ρ hρ => hHolds ρ (hMem ρ hρ)⟩
  · intro ρ hρ
    have hAgree := AgreeBelow.update e.nextVar ρ (φ ρ)
    refine ⟨_, (hModels _).mpr ⟨h.update_mem hρ (φ ρ), ?_⟩, hAgree⟩
    rw [Function.update_self]
    exact hφ _ _ hAgree
  · rw [var_fresh]
    exact Nat.lt_succ_self _
  · intro ρ hρ
    rw [holds_fresh, ((hModels ρ).mp hρ).2]

/-- What has been defined may be remembered. -/
theorem Defines.remember {a b l : Lit} (h : Defines M e (l, e') fun ρ => a.holds ρ && b.holds ρ) :
    Defines M e (l, { e' with cache := e'.cache.map fun cache => cache.insert a b l })
      fun ρ => a.holds ρ && b.holds ρ := by
  refine ⟨⟨⟨h.valid.pinned, h.valid.below, h.valid.closed, ?_⟩, h.le, h.subset, h.lift, fun hNone => ?_⟩,
    h.bounded, h.holds⟩
  on_goal 2 => rw [h.plain hNone, Option.map_none]
  intro cache hCache c d k hFind
  obtain ⟨old, hOld, rfl⟩ := Option.map_eq_some_iff.mp hCache
  rw [Conjunctions.find?_insert] at hFind
  split at hFind
  · rename_i hKey
    cases hFind
    refine ⟨h.bounded, fun ρ hρ => ?_⟩
    have hPair : (c = a ∧ d = b) ∨ (c = b ∧ d = a) := by
      simp only [Conjunctions.key] at hKey
      split at hKey <;> split at hKey <;> simp_all
    rcases hPair with ⟨rfl, rfl⟩ | ⟨rfl, rfl⟩
    · exact h.holds ρ hρ
    · rw [h.holds ρ hρ, Bool.and_comm]
  · exact h.valid.cached old hOld c d k hFind

end Define

section Clauses

variable (ρ : Assignment) (a b c l : Lit)

theorem mem_models_andClauses :
    ρ ∈ Cnf.models [[a, -l], [b, -l], [-a, -b, l]] ↔ l.holds ρ = (a.holds ρ && b.holds ρ) := by
  simp only [Cnf.mem_models_iff, Cnf.holds, Clause.holds, List.all_cons, List.all_nil,
    List.any_cons, List.any_nil, Lit.holds_neg]
  cases a.holds ρ <;> cases b.holds ρ <;> cases l.holds ρ <;> decide

theorem mem_models_xorClauses :
    ρ ∈ Cnf.models (xorClauses a b l) ↔ l.holds ρ = (a.holds ρ ^^ b.holds ρ) := by
  simp only [xorClauses, Cnf.mem_models_iff, Cnf.holds, Clause.holds, List.all_cons,
    List.all_nil, List.any_cons, List.any_nil, Lit.holds_neg]
  cases a.holds ρ <;> cases b.holds ρ <;> cases l.holds ρ <;> decide

theorem mem_models_flipClauses :
    ρ ∈ Cnf.models [[b, a, -l], [b, -a, l], [-b, a, l], [-b, -a, -l]] ↔
      l.holds ρ = (a.holds ρ ^^ b.holds ρ) := by
  simp only [Cnf.mem_models_iff, Cnf.holds, Clause.holds, List.all_cons, List.all_nil,
    List.any_cons, List.any_nil, Lit.holds_neg]
  cases a.holds ρ <;> cases b.holds ρ <;> cases l.holds ρ <;> decide

theorem mem_models_flipIfClauses :
    ρ ∈ Cnf.models [[a, c, -l], [a, b, -l], [-a, -c, -b, -l], [-a, c, l], [-a, b, l],
      [a, -c, -b, l]] ↔ l.holds ρ = (a.holds ρ ^^ (c.holds ρ && b.holds ρ)) := by
  simp only [Cnf.mem_models_iff, Cnf.holds, Clause.holds, List.all_cons, List.all_nil,
    List.any_cons, List.any_nil, Lit.holds_neg]
  cases a.holds ρ <;> cases b.holds ρ <;> cases c.holds ρ <;> cases l.holds ρ <;> decide

theorem mem_models_differenceClauses :
    ρ ∈ Cnf.models (differenceClauses a b l) ↔ l.holds ρ = (a.holds ρ ^^ b.holds ρ) := by
  simp only [differenceClauses, Cnf.mem_models_iff, Cnf.holds, Clause.holds, List.all_cons,
    List.all_nil, List.any_cons, List.any_nil, Lit.holds_neg]
  cases a.holds ρ <;> cases b.holds ρ <;> cases l.holds ρ <;> decide

theorem mem_models_equalClauses (hρ : ρ ∈ SoftError.pinned) :
    ρ ∈ Cnf.models (equalClauses a b) ↔ a.holds ρ = b.holds ρ := by
  have hConstant : ∀ x y : Lit, x.isConstant = true →
      (ρ ∈ Cnf.models [[if x = .top then y else -y]] ↔ x.holds ρ = y.holds ρ) := by
    intro x y hx
    have hTop := holds_top hρ
    have hBot := holds_bot hρ
    rcases (Lit.isConstant_iff x).mp hx with rfl | rfl
    · rw [if_neg (by decide), hBot]
      cases hy : y.holds ρ <;> simp [Cnf.mem_models, Clause.mem_models, hy]
    · rw [if_pos rfl, hTop]
      cases hy : y.holds ρ <;> simp [Cnf.mem_models, Clause.mem_models, hy]
  rw [equalClauses]
  split
  · rename_i hSame
    simp [hSame, Cnf.mem_models]
  · split
    · rename_i ha
      exact hConstant a b ha
    · split
      · rename_i hb
        rw [hConstant b a hb, eq_comm]
      · simp only [Cnf.mem_models_iff, Cnf.holds, Clause.holds, List.all_cons, List.all_nil,
          List.any_cons, List.any_nil, Lit.holds_neg]
        cases a.holds ρ <;> cases b.holds ρ <;> decide

end Clauses

section Bounds

variable {n : Nat} {a b c l : Lit} (ha : a.var < n) (hb : b.var < n) (hl : l.var < n)
include ha hb

theorem below_equalClauses : Cnf.Below n (equalClauses a b) := by
  rw [equalClauses]
  repeat' split
  all_goals simp [Cnf.Below, ha, hb]

include hl

theorem below_andClauses : Cnf.Below n [[a, -l], [b, -l], [-a, -b, l]] := by
  simp [Cnf.Below, ha, hb, hl]

theorem below_xorClauses : Cnf.Below n (xorClauses a b l) := by
  simp [xorClauses, Cnf.Below, ha, hb, hl]

theorem below_flipClauses :
    Cnf.Below n [[b, a, -l], [b, -a, l], [-b, a, l], [-b, -a, -l]] := by
  simp [Cnf.Below, ha, hb, hl]

theorem below_differenceClauses : Cnf.Below n (differenceClauses a b l) := by
  simp [differenceClauses, Cnf.Below, ha, hb, hl]

theorem below_flipIfClauses (hc : c.var < n) :
    Cnf.Below n [[a, c, -l], [a, b, -l], [-a, -c, -b, -l], [-a, c, l], [-a, b, l],
      [a, -c, -b, l]] := by
  simp [Cnf.Below, ha, hb, hc, hl]

end Bounds

/-- A fresh name for a literal. -/
theorem Valid.rename (h : e.Valid M) {l : Lit} (hl : l.var < e.nextVar) :
    Defines M e (e.fresh.1, e.fresh.2.equal e.fresh.1 l) fun ρ => l.holds ρ :=
  h.defines_fresh (below_equalClauses e.var_fresh_lt (Nat.lt_succ_of_lt hl))
    (fun _ _ hAgree => hAgree.holds hl) fun ρ hρ => mem_models_equalClauses ρ _ l hρ

section Gates

variable {a b : Lit} (h : e.Valid M) (ha : a.var < e.nextVar) (hb : b.var < e.nextVar)
include h ha hb

theorem Valid.and : Defines M e (e.and a b) fun ρ => a.holds ρ && b.holds ρ := by
  have hConstant := e.two_le_nextVar
  rw [Encoder.and]
  split
  · rename_i hBot
    refine h.defines_self hConstant fun ρ hρ => ?_
    have hFalse := holds_bot (h.mem_pinned hρ)
    rcases hBot with rfl | rfl <;> simp [hFalse]
  · split
    · rename_i hTop
      refine h.defines_self hb fun ρ hρ => ?_
      rw [hTop, holds_top (h.mem_pinned hρ), Bool.true_and]
    · split
      · rename_i hSame
        refine h.defines_self ha fun ρ hρ => ?_
        rcases hSame with rfl | rfl
        · rw [holds_top (h.mem_pinned hρ), Bool.and_true]
        · rw [Bool.and_self]
      · split
        · rename_i hOpposite
          refine h.defines_self hConstant fun ρ hρ => ?_
          rw [holds_bot (h.mem_pinned hρ), hOpposite, Lit.holds_neg, Bool.not_and_self]
        · split
          · rename_i l hFind
            obtain ⟨cache, hCache, hFind⟩ := Option.bind_eq_some_iff.mp hFind
            obtain ⟨hVar, hHolds⟩ := h.cached cache hCache a b l hFind
            exact h.defines_self hVar hHolds
          · refine Defines.remember (h.defines_fresh ?_ ?_ ?_)
            · exact below_andClauses (Nat.lt_succ_of_lt ha) (Nat.lt_succ_of_lt hb) e.var_fresh_lt
            · intro ρ ρ' hAgree
              rw [hAgree.holds ha, hAgree.holds hb]
            · exact fun ρ _ => mem_models_andClauses ρ a b _

end Gates

theorem Defines.neg {l : Lit} {φ : Assignment → Bool} (h : Defines M e (l, e') φ) :
    Defines M e (-l, e') fun ρ => !φ ρ := by
  refine ⟨h.toExtends, ?_, fun ρ hρ => ?_⟩
  · rw [Lit.var_neg]
    exact h.bounded
  · rw [Lit.holds_neg, h.holds ρ hρ]

theorem Defines.congr {r : Lit × Encoder} {φ ψ : Assignment → Bool} (h : Defines M e r φ)
    (hφ : ∀ ρ ∈ r.2.models M, φ ρ = ψ ρ) : Defines M e r ψ :=
  ⟨h.toExtends, h.bounded, fun ρ hρ => (h.holds ρ hρ).trans (hφ ρ hρ)⟩

section Connectives

variable {a b : Lit} (h : e.Valid M) (ha : a.var < e.nextVar) (hb : b.var < e.nextVar)
include h ha hb

theorem Valid.or : Defines M e (e.or a b) fun ρ => a.holds ρ || b.holds ρ := by
  refine (h.and (a := -a) (b := -b) ?_ ?_).neg.congr fun ρ _ => ?_
  · rwa [Lit.var_neg]
  · rwa [Lit.var_neg]
  · simp

theorem Valid.xor : Defines M e (e.xor a b) fun ρ => a.holds ρ ^^ b.holds ρ := by
  have hConstant := e.two_le_nextVar
  rw [Encoder.xor]
  split
  · rename_i hBot
    refine h.defines_self hb fun ρ hρ => ?_
    simp [hBot, holds_bot (h.mem_pinned hρ)]
  · split
    · rename_i hBot
      refine h.defines_self ha fun ρ hρ => ?_
      simp [hBot, holds_bot (h.mem_pinned hρ)]
    · split
      · rename_i hTop
        refine h.defines_self (by rwa [Lit.var_neg]) fun ρ hρ => ?_
        simp [hTop, holds_top (h.mem_pinned hρ)]
      · split
        · rename_i hTop
          refine h.defines_self (by rwa [Lit.var_neg]) fun ρ hρ => ?_
          simp [hTop, holds_top (h.mem_pinned hρ)]
        · split
          · rename_i hSame
            refine h.defines_self hConstant fun ρ hρ => ?_
            simp [hSame, holds_bot (h.mem_pinned hρ)]
          · split
            · rename_i hOpposite
              refine h.defines_self hConstant fun ρ hρ => ?_
              simp [hOpposite, holds_top (h.mem_pinned hρ)]
            · refine h.defines_fresh ?_ ?_ fun ρ _ => mem_models_xorClauses ρ a b _
              · exact below_xorClauses (Nat.lt_succ_of_lt ha) (Nat.lt_succ_of_lt hb) e.var_fresh_lt
              · intro ρ ρ' hAgree
                rw [hAgree.holds ha, hAgree.holds hb]

end Connectives

section Flips

variable {old c f : Lit} (h : e.Valid M) (hOld : old.var < e.nextVar) (hf : f.var < e.nextVar)
include h hOld hf

theorem Valid.flip : Defines M e (e.flip old f) fun ρ => old.holds ρ ^^ f.holds ρ := by
  rw [Encoder.flip]
  split
  · rename_i hTop
    refine (h.defines_self hf fun ρ _ => rfl).neg.congr fun ρ hρ => ?_
    rw [hTop, holds_top (h.mem_pinned hρ), Bool.true_xor]
  · split
    · rename_i hBot
      refine h.defines_self hf fun ρ hρ => ?_
      rw [hBot, holds_bot (h.mem_pinned hρ), Bool.false_xor]
    · refine h.defines_fresh ?_ ?_ fun ρ _ => ?_
      · exact below_flipClauses (Nat.lt_succ_of_lt hOld) (Nat.lt_succ_of_lt hf) e.var_fresh_lt
      · intro ρ ρ' hAgree
        rw [hAgree.holds hOld, hAgree.holds hf]
      · exact mem_models_flipClauses ρ old f _

variable (hc : c.var < e.nextVar)
include hc

theorem Valid.flipIf :
    Defines M e (e.flipIf old c f) fun ρ => old.holds ρ ^^ (c.holds ρ && f.holds ρ) := by
  rw [Encoder.flipIf]
  split
  · rename_i hBot
    refine (h.and hc hf).congr fun ρ hρ => ?_
    rw [hBot, holds_bot (h.pinned hρ.1), Bool.false_xor]
  · split
    · rename_i hTop
      refine (h.and hc hf).neg.congr fun ρ hρ => ?_
      rw [hTop, holds_top (h.pinned hρ.1), Bool.true_xor]
    · refine h.defines_fresh ?_ ?_ fun ρ _ => ?_
      · exact below_flipIfClauses (Nat.lt_succ_of_lt hOld) (Nat.lt_succ_of_lt hf)
          e.var_fresh_lt (Nat.lt_succ_of_lt hc)
      · intro ρ ρ' hAgree
        rw [hAgree.holds hOld, hAgree.holds hf, hAgree.holds hc]
      · exact mem_models_flipIfClauses ρ old f c _

end Flips

section Differs

theorem mem_models_snoc {ρ : Assignment} {c : Clause} {l : Lit} :
    ρ ∈ Clause.models (c ++ [l]) ↔ ρ ∈ c.models ∨ l.holds ρ = true := by
  simp [Clause.mem_models]

/-- A clause that holds if the vectors differ, or if one of the literals collected before
holds. -/
structure Tells (M : Set Assignment) (e : Encoder) (collected xs ys : List Lit)
    (r : List Lit × Encoder) : Prop extends Extends M e r.2 where
  bounded : ∀ l ∈ r.1, l.var < r.2.nextVar
  models : ∀ ρ ∈ r.2.models M, ρ ∈ Clause.models r.1 ↔
    ρ ∈ Clause.models collected ∨ xs.map (Lit.holds ρ) ≠ ys.map (Lit.holds ρ)

theorem Defines.tells {d x y : Lit} {collected xs ys : List Lit} {r : List Lit × Encoder}
    (hd : Defines M e (d, e') fun ρ => x.holds ρ ^^ y.holds ρ)
    (h : Tells M e' (collected ++ [d]) xs ys r) :
    Tells M e collected (x :: xs) (y :: ys) r := by
  refine ⟨hd.toExtends.trans h.toExtends, h.bounded, fun ρ hρ => ?_⟩
  rw [h.models ρ hρ, mem_models_snoc, hd.holds ρ (h.subset hρ), List.map_cons, List.map_cons,
    ne_eq, ne_eq, List.cons.injEq, or_assoc]
  refine or_congr_right ?_
  cases x.holds ρ <;> cases y.holds ρ <;> simp

theorem Tells.cons_self {collected xs ys : List Lit} {r : List Lit × Encoder}
    (h : Tells M e collected xs ys r) (x : Lit) : Tells M e collected (x :: xs) (x :: ys) r := by
  refine ⟨h.toExtends, h.bounded, fun ρ hρ => ?_⟩
  rw [h.models ρ hρ, List.map_cons, List.map_cons, ne_eq, ne_eq, List.cons.injEq]
  simp

theorem Valid.tells_top (h : e.Valid M) (collected xs ys : List Lit) (y : Lit) :
    Tells M e collected (-y :: xs) (y :: ys) ([.top], e) := by
  refine ⟨.refl h, fun l hl => ?_, fun ρ hρ => iff_of_true ?_ (.inr fun hEq => ?_)⟩
  · rw [List.mem_singleton.mp hl]
    exact e.two_le_nextVar
  · exact Clause.mem_models.mpr ⟨_, List.mem_singleton_self _, holds_top (h.mem_pinned hρ)⟩
  · rw [List.map_cons, List.map_cons, Lit.holds_neg] at hEq
    exact Bool.not_ne_self _ (List.cons.inj hEq).1

/-- What becomes of the first pair. It is passed by, or it settles the matter, or a literal is
collected for it, which may be one of the pair or a fresh one. -/
theorem differsFrom_cons_cases (e : Encoder) (collected : List Lit) (x y : Lit)
    (xs ys : List Lit) :
    (x = y ∧ e.differsFrom collected (x :: xs) (y :: ys) = e.differsFrom collected xs ys) ∨
    (x = -y ∧ e.differsFrom collected (x :: xs) (y :: ys) = ([.top], e)) ∨
    (∃ d : Lit, (d.var = x.var ∨ d.var = y.var) ∧
      (∀ ρ ∈ pinned, d.holds ρ = (x.holds ρ ^^ y.holds ρ)) ∧
      e.differsFrom collected (x :: xs) (y :: ys) = e.differsFrom (collected ++ [d]) xs ys) ∨
    e.differsFrom collected (x :: xs) (y :: ys) =
      (e.fresh.2.add (differenceClauses x y e.fresh.1)).differsFrom (collected ++ [e.fresh.1])
        xs ys := by
  by_cases hSame : x = y
  · exact .inl ⟨hSame, by rw [differsFrom, if_pos hSame]⟩
  by_cases hOpposite : x = -y
  · exact .inr (.inl ⟨hOpposite, by rw [differsFrom, if_neg hSame, if_pos hOpposite]⟩)
  rw [differsFrom, if_neg hSame, if_neg hOpposite]
  refine .inr (.inr ?_)
  split
  · rename_i hTop
    refine .inl ⟨-y, .inr y.var_neg, fun ρ hρ => ?_, rfl⟩
    rw [hTop, holds_top hρ, Lit.holds_neg, Bool.true_xor]
  split
  · rename_i hBot
    refine .inl ⟨y, .inr rfl, fun ρ hρ => ?_, rfl⟩
    rw [hBot, holds_bot hρ, Bool.false_xor]
  split
  · rename_i hTop
    refine .inl ⟨-x, .inl x.var_neg, fun ρ hρ => ?_, rfl⟩
    rw [hTop, holds_top hρ, Lit.holds_neg, Bool.xor_true]
  split
  · rename_i hBot
    refine .inl ⟨x, .inl rfl, fun ρ hρ => ?_, rfl⟩
    rw [hBot, holds_bot hρ, Bool.xor_false]
  · exact .inr rfl

theorem Valid.defines_difference (h : e.Valid M) {x y : Lit} (hx : x.var < e.nextVar)
    (hy : y.var < e.nextVar) :
    Defines M e (e.fresh.1, e.fresh.2.add (differenceClauses x y e.fresh.1))
      fun ρ => x.holds ρ ^^ y.holds ρ := by
  refine h.defines_fresh ?_ (fun ρ ρ' hAgree => ?_) fun ρ _ => mem_models_differenceClauses ρ x y _
  · exact below_differenceClauses (Nat.lt_succ_of_lt hx) (Nat.lt_succ_of_lt hy) e.var_fresh_lt
  · rw [hAgree.holds hx, hAgree.holds hy]

theorem Valid.differsFrom (h : e.Valid M) {collected xs ys : List Lit}
    (hLength : xs.length = ys.length) (hCollected : ∀ l ∈ collected, l.var < e.nextVar)
    (hxs : ∀ l ∈ xs, l.var < e.nextVar) (hys : ∀ l ∈ ys, l.var < e.nextVar) :
    Tells M e collected xs ys (e.differsFrom collected xs ys) := by
  induction xs generalizing e collected ys with
  | nil =>
    obtain rfl : ys = [] := List.length_eq_zero_iff.mp hLength.symm
    exact ⟨.refl h, hCollected, fun ρ _ => by simp [Encoder.differsFrom]⟩
  | cons x xs ih =>
    obtain _ | ⟨y, ys⟩ := ys
    · cases hLength
    have hLength : xs.length = ys.length := Nat.succ.inj hLength
    obtain ⟨hx, hxs⟩ := List.forall_mem_cons.mp hxs
    obtain ⟨hy, hys⟩ := List.forall_mem_cons.mp hys
    rcases differsFrom_cons_cases e collected x y xs ys with
      ⟨hSame, hEq⟩ | ⟨hOpposite, hEq⟩ | ⟨d, hVar, hHolds, hEq⟩ | hEq
    · rw [hEq, hSame]
      exact (ih h hLength hCollected hxs hys).cons_self y
    · rw [hEq, hOpposite]
      exact h.tells_top collected xs ys y
    · have hd : d.var < e.nextVar := by
        rcases hVar with hVar | hVar
        · exact hVar ▸ hx
        · exact hVar ▸ hy
      rw [hEq]
      refine (h.defines_self hd fun ρ hρ => hHolds ρ (h.mem_pinned hρ)).tells
        (ih h hLength ?_ hxs hys)
      exact List.forall_mem_append.mpr ⟨hCollected, List.forall_mem_singleton.mpr hd⟩
    · have hd := h.defines_difference hx hy
      rw [hEq]
      refine hd.tells (ih hd.valid hLength ?_ (fun l hl => lt_of_lt_of_le (hxs l hl) hd.le)
        fun l hl => lt_of_lt_of_le (hys l hl) hd.le)
      exact List.forall_mem_append.mpr ⟨fun l hl => lt_of_lt_of_le (hCollected l hl) hd.le,
        List.forall_mem_singleton.mpr hd.bounded⟩

theorem Valid.differs (h : e.Valid M) {xs ys : List Lit} (hLength : xs.length = ys.length)
    (hxs : ∀ l ∈ xs, l.var < e.nextVar) (hys : ∀ l ∈ ys, l.var < e.nextVar) :
    Tells M e [] xs ys (e.differs xs ys) :=
  h.differsFrom hLength (by simp) hxs hys

end Differs

end Encoder

end SoftError

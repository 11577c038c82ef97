import SoftError.Proofs.Encoding.Encoder

/-!
# At most one literal of a list

Both encodings say that no two positions of the list hold. The counter variables of the
sequential one are determined from the left: each holds if a literal up to its position
does, and an assignment with at most one true position extends to them.
-/

namespace SoftError

/-- No two positions of the list hold. -/
def AtMostOne (ρ : Assignment) (ls : List Lit) : Prop :=
  ls.Pairwise fun a b => ¬ (a.holds ρ = true ∧ b.holds ρ = true)

theorem atMostOne_cons {ρ : Assignment} {l : Lit} {ls : List Lit} :
    AtMostOne ρ (l :: ls) ↔
      (∀ a ∈ ls, ¬ (l.holds ρ = true ∧ a.holds ρ = true)) ∧ AtMostOne ρ ls :=
  List.pairwise_cons

theorem AtMostOne.congr {ρ ρ' : Assignment} {n : Nat} {ls : List Lit} (h : AtMostOne ρ ls)
    (hAgree : AgreeBelow n ρ ρ') (hls : ∀ l ∈ ls, l.var < n) : AtMostOne ρ' ls := by
  refine List.Pairwise.imp_of_mem (fun {a b} ha hb hNot => ?_) h
  rwa [← hAgree.holds (hls a ha), ← hAgree.holds (hls b hb)]

namespace OneHot

theorem mem_models_pair {ρ : Assignment} {a b : Lit} :
    ρ ∈ Clause.models [-a, -b] ↔ ¬ (a.holds ρ = true ∧ b.holds ρ = true) := by
  rw [← meets_singleton, ← meets_singleton, ← meets_append]
  exact @Clause.mem_models_negate ρ [a, b]

theorem mem_models_exclude {ρ : Assignment} {l : Lit} {ls : List Lit} :
    ρ ∈ Cnf.models (exclude l ls) ↔ ∀ a ∈ ls, ¬ (l.holds ρ = true ∧ a.holds ρ = true) := by
  simp only [exclude, Cnf.mem_models, List.forall_mem_map, mem_models_pair]

theorem mem_models_pairwise {ρ : Assignment} {ls : List Lit} :
    ρ ∈ Cnf.models (pairwise ls) ↔ AtMostOne ρ ls := by
  induction ls with
  | nil => simp [pairwise, AtMostOne, Cnf.mem_models]
  | cons l ls ih =>
    rw [pairwise, Cnf.mem_models_append, ih, mem_models_exclude, atMostOne_cons]

theorem mem_models_implies {ρ : Assignment} {a b : Lit} :
    ρ ∈ Clause.models [-a, b] ↔ (a.holds ρ = true → b.holds ρ = true) := by
  simp only [Clause.mem_models, List.mem_cons, List.not_mem_nil, or_false, exists_eq_or_imp,
    exists_eq_left, Lit.holds_neg]
  cases a.holds ρ <;> simp

theorem mem_models_chainLink {ρ : Assignment} {l s counter : Lit} :
    ρ ∈ Cnf.models [[-l, s], [-counter, s], [-l, -counter]] ↔
      (l.holds ρ = true → s.holds ρ = true) ∧ (counter.holds ρ = true → s.holds ρ = true) ∧
        ¬ (l.holds ρ = true ∧ counter.holds ρ = true) := by
  rw [Cnf.mem_models, List.forall_mem_cons, List.forall_mem_cons, List.forall_mem_singleton,
    mem_models_implies, mem_models_implies, mem_models_pair]

/-- The counter before the list excludes all of it. -/
theorem atMostOne_of_chain {ρ : Assignment} {counter : Lit} {ls ss : List Lit}
    (hLength : ls.length = ss.length + 1) (h : ρ ∈ Cnf.models (chain counter ls ss)) :
    AtMostOne ρ (counter :: ls) := by
  induction ls generalizing counter ss with
  | nil => cases hLength
  | cons l ls ih =>
    rw [AtMostOne, List.pairwise_cons, List.forall_mem_cons]
    obtain _ | ⟨s, ss⟩ := ss
    · obtain rfl : ls = [] := List.length_eq_zero_iff.mp (Nat.succ.inj hLength)
      rw [chain, Cnf.mem_models, List.forall_mem_singleton, mem_models_pair, and_comm] at h
      exact ⟨⟨h, by simp⟩, List.pairwise_singleton _ _⟩
    · rw [chain, Cnf.mem_models_append] at h
      rw [mem_models_chainLink] at h
      obtain ⟨⟨hLit, hCounter, hBoth⟩, hRest⟩ := h
      have hTail := List.pairwise_cons.mp (ih (Nat.succ.inj hLength) hRest)
      refine ⟨⟨fun ⟨h₁, h₂⟩ => hBoth ⟨h₂, h₁⟩, fun a ha ⟨h₁, h₂⟩ => ?_⟩, ?_⟩
      · exact hTail.1 a ha ⟨hCounter h₁, h₂⟩
      · rw [List.pairwise_cons]
        exact ⟨fun a ha ⟨h₁, h₂⟩ => hTail.1 a ha ⟨hLit h₁, h₂⟩, hTail.2⟩

theorem exists_chain {ρ : Assignment} {p : VarPool} {counter : Lit} {ls : List Lit}
    (hCounter : counter.var < p.next) (hls : ∀ l ∈ ls, l.var < p.next)
    (h : AtMostOne ρ (counter :: ls)) :
    ∃ ρ', AgreeBelow p.next ρ ρ' ∧
      ρ' ∈ Cnf.models (chain counter ls (p.freshList (ls.length - 1)).1) := by
  induction ls generalizing ρ p counter with
  | nil => exact ⟨ρ, .refl _ _, by simp [chain, Cnf.mem_models]⟩
  | cons l ls ih =>
    obtain ⟨hFirst, hRest⟩ := List.pairwise_cons.mp h
    obtain ⟨hl, hls⟩ := List.forall_mem_cons.mp hls
    obtain _ | ⟨l', ls⟩ := ls
    · refine ⟨ρ, .refl _ _, ?_⟩
      change ρ ∈ Cnf.models [[-l, -counter]]
      rw [Cnf.mem_models, List.forall_mem_singleton, mem_models_pair, and_comm]
      exact hFirst l List.mem_cons_self
    · -- the next counter holds if this one or the literal does
      let value := counter.holds ρ || l.holds ρ
      have hUpdate := AgreeBelow.update p.next ρ value
      have hValue : p.fresh.1.holds (Function.update ρ p.next value) = value := by
        rw [VarPool.holds_fresh, Function.update_self]
      have hNext : AtMostOne (Function.update ρ p.next value) (p.fresh.1 :: l' :: ls) := by
        refine List.pairwise_cons.mpr ⟨fun a ha => ?_, ?_⟩
        · rw [hValue, ← hUpdate.holds (hls a ha), Bool.or_eq_true]
          rintro ⟨hCounterHolds | hHolds, haHolds⟩
          · exact hFirst a (List.mem_cons_of_mem _ ha) ⟨hCounterHolds, haHolds⟩
          · exact (List.pairwise_cons.mp hRest).1 a ha ⟨hHolds, haHolds⟩
        · exact AtMostOne.congr (List.pairwise_cons.mp hRest).2 hUpdate hls
      have hVar : p.fresh.1.var < p.fresh.2.next := by
        rw [VarPool.var_fresh]
        exact Nat.lt_succ_self _
      obtain ⟨ρ', hAgree, hModels⟩ := ih (p := p.fresh.2) hVar
        (fun a ha => Nat.lt_succ_of_lt (hls a ha)) hNext
      have hOld : AgreeBelow p.next ρ ρ' := hUpdate.trans (hAgree.mono (Nat.le_succ _))
      have hNew : p.fresh.1.holds ρ' = value := by rw [← hAgree.holds hVar, hValue]
      refine ⟨ρ', hOld, ?_⟩
      change ρ' ∈ Cnf.models ([[-l, p.fresh.1], [-counter, p.fresh.1], [-l, -counter]] ++ _)
      rw [Cnf.mem_models_append, mem_models_chainLink, hNew, ← hOld.holds hCounter,
        ← hOld.holds hl]
      refine ⟨⟨fun hHolds => ?_, fun hHolds => ?_, fun ⟨h₁, h₂⟩ => ?_⟩, hModels⟩
      · exact Bool.or_eq_true_iff.mpr (.inr hHolds)
      · exact Bool.or_eq_true_iff.mpr (.inl hHolds)
      · exact hFirst l List.mem_cons_self ⟨h₂, h₁⟩

theorem atMostOne_of_sequential {ρ : Assignment} {p : VarPool} {ls : List Lit}
    (h : ρ ∈ Cnf.models (sequential p ls).1) : AtMostOne ρ ls := by
  obtain _ | ⟨l, _ | ⟨l', ls⟩⟩ := ls
  · exact .nil
  · exact List.pairwise_singleton _ _
  · change ρ ∈ Cnf.models ([[-l, p.fresh.1]] ++ chain p.fresh.1 (l' :: ls)
      (p.fresh.2.freshList ls.length).1) at h
    rw [Cnf.mem_models_append, Cnf.mem_models, List.forall_mem_singleton, mem_models_implies] at h
    have hLength : (l' :: ls).length = (p.fresh.2.freshList ls.length).1.length + 1 := by
      rw [VarPool.length_freshList, List.length_cons]
    obtain ⟨hFirst, hRest⟩ := List.pairwise_cons.mp (atMostOne_of_chain hLength h.2)
    exact List.pairwise_cons.mpr ⟨fun a ha ⟨h₁, h₂⟩ => hFirst a ha ⟨h.1 h₁, h₂⟩, hRest⟩

theorem exists_sequential {ρ : Assignment} {p : VarPool} {ls : List Lit}
    (hls : ∀ l ∈ ls, l.var < p.next) (h : AtMostOne ρ ls) :
    ∃ ρ', AgreeBelow p.next ρ ρ' ∧ ρ' ∈ Cnf.models (sequential p ls).1 := by
  obtain _ | ⟨l, _ | ⟨l', ls⟩⟩ := ls
  · exact ⟨ρ, .refl _ _, by simp [sequential, Cnf.mem_models]⟩
  · exact ⟨ρ, .refl _ _, by simp [sequential, VarPool.freshList, Cnf.mem_models]⟩
  · obtain ⟨hFirst, hRest⟩ := List.pairwise_cons.mp h
    obtain ⟨hl, hls⟩ := List.forall_mem_cons.mp hls
    -- the first counter is the first literal
    have hUpdate := AgreeBelow.update p.next ρ (l.holds ρ)
    have hValue : p.fresh.1.holds (Function.update ρ p.next (l.holds ρ)) = l.holds ρ := by
      rw [VarPool.holds_fresh, Function.update_self]
    have hVar : p.fresh.1.var < p.fresh.2.next := by
      rw [VarPool.var_fresh]
      exact Nat.lt_succ_self _
    have hNext : AtMostOne (Function.update ρ p.next (l.holds ρ)) (p.fresh.1 :: l' :: ls) := by
      refine List.pairwise_cons.mpr ⟨fun a ha => ?_, AtMostOne.congr hRest hUpdate hls⟩
      rw [hValue, ← hUpdate.holds (hls a ha)]
      exact hFirst a ha
    obtain ⟨ρ', hAgree, hModels⟩ := exists_chain (p := p.fresh.2) hVar
      (fun a ha => Nat.lt_succ_of_lt (hls a ha)) hNext
    have hOld : AgreeBelow p.next ρ ρ' := hUpdate.trans (hAgree.mono (Nat.le_succ _))
    refine ⟨ρ', hOld, ?_⟩
    change ρ' ∈ Cnf.models ([[-l, p.fresh.1]] ++ chain p.fresh.1 (l' :: ls)
      (p.fresh.2.freshList ls.length).1)
    rw [Cnf.mem_models_append, Cnf.mem_models, List.forall_mem_singleton, mem_models_implies]
    refine ⟨fun hHolds => ?_, hModels⟩
    rw [← hAgree.holds hVar, hValue, hOld.holds hl]
    exact hHolds

section Below

variable {n : Nat}

theorem below_exclude {l : Lit} {ls : List Lit} (hl : l.var < n) (hls : ∀ l ∈ ls, l.var < n) :
    (exclude l ls).Below n := by
  intro c hc
  obtain ⟨a, ha, rfl⟩ := List.mem_map.mp hc
  simp [hl, hls a ha]

theorem below_pairwise {ls : List Lit} (h : ∀ l ∈ ls, l.var < n) : (pairwise ls).Below n := by
  induction ls with
  | nil => intro c hc; cases hc
  | cons l ls ih =>
    obtain ⟨hl, hls⟩ := List.forall_mem_cons.mp h
    exact (below_exclude hl hls).append (ih hls)

theorem below_chain {counter : Lit} {ls ss : List Lit} (hCounter : counter.var < n)
    (hls : ∀ l ∈ ls, l.var < n) (hss : ∀ s ∈ ss, s.var < n) : (chain counter ls ss).Below n := by
  fun_induction chain counter ls ss with
  | case1 counter l ls s ss ih =>
    obtain ⟨hl, hls⟩ := List.forall_mem_cons.mp hls
    obtain ⟨hs, hss⟩ := List.forall_mem_cons.mp hss
    intro c hc
    rcases List.mem_append.mp hc with hc | hc
    · simp only [List.mem_cons, List.not_mem_nil, or_false] at hc
      rcases hc with rfl | rfl | rfl <;> simp [hl, hs, hCounter]
    · exact ih hs hls hss c hc
  | case2 counter l =>
    intro c hc
    rw [List.mem_singleton.mp hc]
    simp [hls l List.mem_cons_self, hCounter]
  | case3 => intro c hc; cases hc

theorem var_lt_of_mem_freshList {p : VarPool} {k : Nat} {l : Lit} (h : l ∈ (p.freshList k).1) :
    p.next ≤ l.var ∧ l.var < (p.freshList k).2.next := by
  have hVar : l.var ∈ List.range' p.next k := by
    rw [← VarPool.map_var_freshList]
    exact List.mem_map_of_mem h
  rw [VarPool.next_freshList]
  exact List.mem_range'_1.mp hVar

theorem below_sequential {p : VarPool} {ls : List Lit} (hls : ∀ l ∈ ls, l.var < p.next) :
    p.next ≤ (sequential p ls).2.next ∧ (sequential p ls).1.Below (sequential p ls).2.next := by
  obtain _ | ⟨l, ls⟩ := ls
  · exact ⟨le_rfl, fun c hc => by cases hc⟩
  · have hNext := VarPool.next_freshList p ls.length
    have hCounters := fun l => var_lt_of_mem_freshList (p := p) (k := ls.length) (l := l)
    have hOld : ∀ a ∈ l :: ls, a.var < (p.freshList ls.length).2.next := fun a ha => by
      have := hls a ha
      omega
    rw [sequential]
    cases hFresh : (p.freshList ls.length).1 with
    | nil =>
      simp only [hFresh]
      exact ⟨by omega, fun c hc => by cases hc⟩
    | cons s ss =>
      simp only [hFresh]
      rw [hFresh] at hCounters
      refine ⟨by omega, fun c hc => ?_⟩
      rcases List.mem_cons.mp hc with rfl | hc
      · have hs := (hCounters s List.mem_cons_self).2
        simp [hOld l List.mem_cons_self, hs]
      · exact below_chain (hCounters s List.mem_cons_self).2
          (fun a ha => hOld a (List.mem_cons_of_mem _ ha))
          (fun a ha => (hCounters a (List.mem_cons_of_mem _ ha)).2) c hc

end Below

end OneHot

namespace Encoder

theorem mem_models_addExclude {M : Set Assignment} {e : Encoder} {l : Lit} {ls : List Lit}
    {ρ : Assignment} :
    ρ ∈ (e.add (ls.map fun k => [-l, -k])).models M ↔
      ρ ∈ e.models M ∧ ∀ k ∈ ls, ¬ (l.holds ρ = true ∧ k.holds ρ = true) := by
  rw [models_add, Set.mem_inter_iff]
  exact and_congr_right fun _ => OneHot.mem_models_exclude

theorem Valid.addExclude {M : Set Assignment} {e : Encoder} (h : e.Valid M) {l : Lit}
    (hl : l.var < e.nextVar) {ls : List Lit} (hls : ∀ k ∈ ls, k.var < e.nextVar) :
    (e.add (ls.map fun k => [-l, -k])).Valid M :=
  h.add (OneHot.below_exclude hl hls)

/-- What is left are the assignments in `X`, up to the values of new variables. -/
structure Constrains (M : Set Assignment) (e e' : Encoder) (X : Set Assignment) : Prop where
  valid : e'.Valid M
  le : e.nextVar ≤ e'.nextVar
  subset : e'.models M ⊆ e.models M ∩ X
  lift : ∀ ρ ∈ e.models M ∩ X, ∃ ρ' ∈ e'.models M, AgreeBelow e.nextVar ρ ρ'
  plain : e.cache = none → e'.cache = none

theorem Valid.atMostOne {M : Set Assignment} {e : Encoder} (h : e.Valid M) {ls : List Lit}
    (hls : ∀ l ∈ ls, l.var < e.nextVar) :
    Constrains M e (e.atMostOne ls) {ρ | AtMostOne ρ ls} := by
  by_cases hLength : ls.length ≤ OneHot.pairwiseLimit
  · have hEq : e.atMostOne ls = e.add (OneHot.pairwise ls) := by
      rw [Encoder.atMostOne, OneHot.atMostOne, if_pos hLength]
    rw [hEq]
    refine ⟨h.add (OneHot.below_pairwise hls), le_rfl, ?_, ?_, id⟩
    · intro ρ hρ
      rw [models_add] at hρ
      exact ⟨hρ.1, OneHot.mem_models_pairwise.mp hρ.2⟩
    · rintro ρ ⟨hρ, hOne⟩
      refine ⟨ρ, ?_, .refl _ _⟩
      rw [models_add]
      exact ⟨hρ, OneHot.mem_models_pairwise.mpr hOne⟩
  · have hEq : e.atMostOne ls =
        ({ e with pool := (OneHot.sequential e.pool ls).2 } : Encoder).add
          (OneHot.sequential e.pool ls).1 := by
      rw [Encoder.atMostOne, OneHot.atMostOne, if_neg hLength]
    rw [hEq]
    obtain ⟨hNext, hBelow⟩ := OneHot.below_sequential (p := e.pool) hls
    have hPool : ({ e with pool := (OneHot.sequential e.pool ls).2 } : Encoder).Valid M := by
      refine ⟨h.pinned, h.below.mono hNext,
        fun ρ hρ ρ' hAgree => h.closed ρ hρ ρ' (hAgree.mono hNext), ?_⟩
      intro cache hCache a b l hFind
      obtain ⟨hVar, hHolds⟩ := h.cached cache hCache a b l hFind
      exact ⟨lt_of_lt_of_le hVar hNext, hHolds⟩
    refine ⟨hPool.add hBelow, hNext, ?_, ?_, id⟩
    · intro ρ hρ
      rw [models_add] at hρ
      exact ⟨hρ.1, OneHot.atMostOne_of_sequential hρ.2⟩
    · rintro ρ ⟨hρ, hOne⟩
      obtain ⟨ρ', hAgree, hModels⟩ := OneHot.exists_sequential hls hOne
      refine ⟨ρ', ?_, hAgree⟩
      rw [models_add]
      exact ⟨h.closed ρ hρ ρ' hAgree, hModels⟩

end Encoder

end SoftError

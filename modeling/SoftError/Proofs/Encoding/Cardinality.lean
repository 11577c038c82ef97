import SoftError.Proofs.Encoding.OneHot

/-!
# Counting the true positions of a list

All encodings of "at most one" allow the same assignments: those under which at most one
position of the list is true. A literal that is repeated counts as often as it stands there. The
counter is allowed to choose its own variables, of which there have to be enough in range.
-/

namespace SoftError

theorem atMostOne_iff_countP {ρ : Assignment} {ls : List Lit} :
    AtMostOne ρ ls ↔ ls.countP (Lit.holds ρ) ≤ 1 := by
  induction ls with
  | nil => simp [AtMostOne]
  | cons l ls ih =>
    rw [atMostOne_cons, List.countP_cons]
    cases hl : l.holds ρ with
    | false => simpa using ih
    | true =>
      have hZero : ls.countP (Lit.holds ρ) + 1 ≤ 1 ↔ ∀ a ∈ ls, ¬ a.holds ρ = true := by
        rw [← List.countP_eq_zero]
        omega
      rw [if_pos rfl, hZero]
      simp only [true_and, and_iff_left_iff_imp]
      intro hNone
      exact ih.mpr (by rw [List.countP_eq_zero.mpr hNone]; omega)

/-- Suitable values of the variables from `n` up to `m` satisfy the formula. -/
def Cnf.ExtendsOver (f : Cnf) (n m : Nat) (ρ : Assignment) : Prop :=
  ∃ ρ', (∀ v, v < n ∨ m ≤ v → ρ' v = ρ v) ∧ ρ' ∈ f.models

theorem Cnf.extendsOver_self {f : Cnf} {n : Nat} {ρ : Assignment} :
    f.ExtendsOver n n ρ ↔ ρ ∈ f.models := by
  constructor
  · rintro ⟨ρ', hSame, hρ'⟩
    obtain rfl : ρ' = ρ := funext fun v => hSame v (Nat.lt_or_ge v n)
    exact hρ'
  · exact fun hρ => ⟨ρ, fun _ _ => rfl, hρ⟩

/-- Variables that do not occur can keep their values. -/
theorem Cnf.Below.extendsOver {f : Cnf} {n m : Nat} {ρ ρ' : Assignment} (hf : f.Below m)
    (hAgree : AgreeBelow n ρ ρ') (hρ' : ρ' ∈ f.models) : f.ExtendsOver n m ρ := by
  refine ⟨fun v => if v < m then ρ' v else ρ v, fun v hv => ?_, ?_⟩
  · dsimp only
    split
    · rcases hv with hv | hv
      · exact (hAgree v hv).symm
      · omega
    · rfl
  · refine (mem_models_congr fun c hc l hl => ?_).mp hρ'
    exact (if_pos (hf c hc l hl)).symm

namespace OneHot

theorem next_sequential (p : VarPool) (ls : List Lit) :
    (sequential p ls).2.next = p.next + (ls.length - 1) := by
  obtain _ | ⟨l, ls⟩ := ls
  · rfl
  · rw [sequential]
    cases hFresh : (p.freshList ls.length).1 <;> simp only [hFresh] <;>
      exact VarPool.next_freshList p ls.length

theorem extendsOver_sequential {p : VarPool} {ls : List Lit} (hls : ∀ l ∈ ls, l.var < p.next)
    {ρ : Assignment} :
    (sequential p ls).1.ExtendsOver p.next (sequential p ls).2.next ρ ↔ AtMostOne ρ ls := by
  constructor
  · rintro ⟨ρ', hSame, hρ'⟩
    exact (atMostOne_of_sequential hρ').congr (fun v hv => hSame v (.inl hv)) hls
  · intro hOne
    obtain ⟨ρ', hAgree, hρ'⟩ := exists_sequential hls hOne
    exact (below_sequential hls).2.extendsOver hAgree hρ'

theorem extendsOver_atMostOne {p : VarPool} {ls : List Lit} (hls : ∀ l ∈ ls, l.var < p.next)
    {ρ : Assignment} :
    (atMostOne p ls).1.ExtendsOver p.next (atMostOne p ls).2.next ρ ↔ AtMostOne ρ ls := by
  rw [atMostOne]
  split
  · rw [Cnf.extendsOver_self, mem_models_pairwise]
  · exact extendsOver_sequential hls

/-- Grows a set by one literal after the other. -/
def grow (previous : List Lit) : List Lit → Cnf
  | [] => []
  | l :: ls => exclude l previous ++ grow (previous ++ [l]) ls

theorem atMostOne_append_iff {ρ : Assignment} {ls : List Lit} {l : Lit} :
    AtMostOne ρ (ls ++ [l]) ↔ AtMostOne ρ ls ∧ ρ ∈ Cnf.models (exclude l ls) := by
  rw [AtMostOne, List.pairwise_append, mem_models_exclude]
  simp only [List.pairwise_singleton, List.mem_singleton, forall_eq, true_and, and_comm, AtMostOne]

theorem mem_models_grow {ρ : Assignment} {previous ls : List Lit} :
    AtMostOne ρ previous ∧ ρ ∈ Cnf.models (grow previous ls) ↔ AtMostOne ρ (previous ++ ls) := by
  induction ls generalizing previous with
  | nil => simp [grow, Cnf.mem_models]
  | cons l ls ih =>
    rw [grow, Cnf.mem_models_append, ← and_assoc, ← atMostOne_append_iff, ih,
      List.append_assoc, List.singleton_append]

theorem below_grow {n : Nat} {previous ls : List Lit} (hPrevious : ∀ l ∈ previous, l.var < n)
    (hls : ∀ l ∈ ls, l.var < n) : (grow previous ls).Below n := by
  induction ls generalizing previous with
  | nil => exact List.forall_mem_nil _
  | cons l ls ih =>
    obtain ⟨hl, hls⟩ := List.forall_mem_cons.mp hls
    refine (below_exclude hl hPrevious).append (ih ?_ hls)
    exact List.forall_mem_append.mpr ⟨hPrevious, List.forall_mem_singleton.mpr hl⟩

/-- The clauses added stay in range if the encoder does. -/
theorem inRange_atMostOne {e : Encoder} {ls : List Lit} (hls : ∀ l ∈ ls, l.var < e.nextVar)
    (h : (e.atMostOne ls).InRange) : (atMostOne e.pool ls).1.InRange := by
  have hPool : (atMostOne e.pool ls).2.InRange := h
  unfold atMostOne at hPool ⊢
  by_cases hLength : ls.length ≤ pairwiseLimit
  · rw [if_pos hLength] at hPool ⊢
    exact (below_pairwise hls).inRange hPool
  · rw [if_neg hLength] at hPool ⊢
    exact (below_sequential hls).2.inRange hPool

theorem mem_models_atLeastOne {ρ : Assignment} {ls : List Lit} :
    ρ ∈ Cnf.models (atLeastOne ls) ↔ 0 < ls.countP (Lit.holds ρ) := by
  rw [atLeastOne, Cnf.mem_models, List.forall_mem_singleton, Clause.mem_models, List.countP_pos_iff]

/-- The encodings of "at most one" count the true positions of a list, and so does "exactly
one". Each of them is a formula in words if the literals are in range and the counter does not run
out of variables. -/
theorem encodings_count_positions (ls : List Lit) (hRange : ∀ l ∈ ls, l.InRange)
    (ρ : Assignment) :
    ((pairwise ls).words? = some (pairwise ls) ∧
      (ρ ∈ Cnf.models (pairwise ls) ↔ ls.countP (Lit.holds ρ) ≤ 1)) ∧
    (∀ p : VarPool, (∀ l ∈ ls, l.var < p.next) → p.next + (ls.length - 1) ≤ Lit.maxVar + 1 →
      (sequential p ls).1.words? = some (sequential p ls).1 ∧
      (sequential p ls).2.next = p.next + (ls.length - 1) ∧
      ((sequential p ls).1.ExtendsOver p.next (sequential p ls).2.next ρ ↔
        ls.countP (Lit.holds ρ) ≤ 1)) ∧
    (∀ e : Encoder, (∀ l ∈ ls, l.var < e.nextVar) → (e.atMostOne ls).InRange →
      ∃ added : Cnf, (e.atMostOne ls).pending = e.pending ++ added ∧
        added.words? = some added ∧
        (added.ExtendsOver e.nextVar (e.atMostOne ls).nextVar ρ ↔
          ls.countP (Lit.holds ρ) ≤ 1)) ∧
    ((grow [] ls).words? = some (grow [] ls) ∧
      (ρ ∈ Cnf.models (grow [] ls) ↔ ρ ∈ Cnf.models (pairwise ls))) ∧
    ((exactlyOne ls).words? = some (exactlyOne ls) ∧
      (ρ ∈ Cnf.models (exactlyOne ls) ↔ ls.countP (Lit.holds ρ) = 1)) := by
  have hVars : ∀ l ∈ ls, l.var < Lit.maxVar + 1 := fun l hl => Nat.lt_succ_of_le (hRange l hl)
  have hBelow := below_pairwise hVars
  have hPairwise : ρ ∈ Cnf.models (pairwise ls) ↔ ls.countP (Lit.holds ρ) ≤ 1 :=
    mem_models_pairwise.trans atMostOne_iff_countP
  refine ⟨⟨(hBelow.inRange le_rfl).words?_eq, hPairwise⟩, fun p hls hPool => ?_,
    fun e hls hEncoder => ?_, ⟨?_, ?_⟩, ⟨?_, ?_⟩⟩
  · have hNext := next_sequential p ls
    refine ⟨((below_sequential hls).2.inRange (hNext.trans_le hPool)).words?_eq, hNext, ?_⟩
    exact (extendsOver_sequential hls).trans atMostOne_iff_countP
  · exact ⟨(atMostOne e.pool ls).1, rfl, (inRange_atMostOne hls hEncoder).words?_eq,
      (extendsOver_atMostOne hls).trans atMostOne_iff_countP⟩
  · exact ((below_grow (List.forall_mem_nil _) hVars).inRange le_rfl).words?_eq
  · rw [mem_models_pairwise, ← List.nil_append ls, ← mem_models_grow]
    exact (and_iff_right List.Pairwise.nil).symm
  · have hOne : (exactlyOne ls).Below (Lit.maxVar + 1) :=
      List.forall_mem_cons.mpr ⟨hVars, hBelow⟩
    exact (hOne.inRange le_rfl).words?_eq
  · rw [exactlyOne, Cnf.mem_models_append, mem_models_atLeastOne, hPairwise]
    omega

/-- The counters stand beyond variable 5. -/
def repeatedPool : VarPool := ⟨6, by decide⟩

/-- A list with a repeated literal, complementary ones and a constant, too long for pairs. -/
def repeatedLits : List Lit := [2, 3, 2, .bot, -4, 4, 5]

theorem repeatedLits_sequential :
    ¬ (sequential repeatedPool repeatedLits).1.ExtendsOver 6 12 (fun v => v == 2) ∧
      (sequential repeatedPool repeatedLits).1.ExtendsOver 6 12 (fun v => v == 4) := by
  have hRange : ∀ l ∈ repeatedLits, l.InRange := by decide
  have hls : ∀ l ∈ repeatedLits, l.var < repeatedPool.next := by decide
  obtain ⟨-, hTwo, -⟩ := encodings_count_positions repeatedLits hRange fun v => v == 2
  obtain ⟨-, hOne, -⟩ := encodings_count_positions repeatedLits hRange fun v => v == 4
  constructor
  · exact fun h => absurd ((hTwo repeatedPool hls (by decide)).2.2.mp h) (by decide)
  · exact (hOne repeatedPool hls (by decide)).2.2.mpr (by decide)

/-- The next variable is the largest unsigned 32-bit word. -/
def lastPool : VarPool := ⟨4294967295, by decide⟩

/-- Beyond the range the counter has no literals, wherever the literals of the list are. -/
theorem lastPool_sequential :
    (∀ l ∈ ([2, 3, 4] : List Lit), l.var < lastPool.next) ∧
      (sequential lastPool [2, 3, 4]).1.words? = none := by
  decide

end OneHot

end SoftError

import SoftError.Decision.Procedure
import SoftError.Proofs.Formula.Models
import SoftError.Proofs.Outcome

/-!
# Exact decision procedures

The state of a procedure stands for a stack of sets of assignments: the models of what each
frame has been told. A procedure is exact if every answer it gives is right for the topmost
set. It may choose any model, and it may fail at any time.
-/

namespace SoftError

namespace Deciding

variable {σ ε ε' α β : Type}

def Returns (m : Deciding σ ε α) (s : σ) (a : α) (s' : σ) : Prop :=
  m.run.run s = (.ok a, s')

theorem returns_of_toOption {m : Deciding σ ε α} {s : σ} {a : α}
    (h : (m.run.run s).1.toOption = some a) : Returns m s a (m.run.run s).2 := by
  unfold Returns
  rcases hRun : m.run.run s with ⟨_ | b, t⟩ <;> rw [hRun] at h
  · cases h
  · cases h
    rfl

@[simp]
theorem returns_pure {a b : α} {s s' : σ} :
    Returns (pure a : Deciding σ ε α) s b s' ↔ b = a ∧ s' = s := by
  constructor
  · intro h
    injection h with hResult hState
    injection hResult with hResult
    exact ⟨hResult.symm, hState.symm⟩
  · rintro ⟨rfl, rfl⟩
    rfl

theorem run_bind (m : Deciding σ ε α) (f : α → Deciding σ ε β) (s : σ) :
    (m >>= f).run.run s =
      (match m.run.run s with
      | (.ok a, t) => (f a).run.run t
      | (.error e, t) => (.error e, t)) := by
  change (ExceptT.bind m f).run.run s = _
  simp only [ExceptT.bind, ExceptT.run, ExceptT.mk, bind, StateT.bind, StateT.run]
  rcases m s with ⟨_ | a, t⟩ <;> rfl

theorem returns_bind {m : Deciding σ ε α} {f : α → Deciding σ ε β} {s s' : σ} {b : β} :
    Returns (m >>= f) s b s' ↔ ∃ a t, Returns m s a t ∧ Returns (f a) t b s' := by
  unfold Returns
  rw [run_bind]
  rcases m.run.run s with ⟨e | a, t⟩
  · constructor
    · intro h
      cases h
    · rintro ⟨a, t', h, _⟩
      cases h
  · constructor
    · intro h
      exact ⟨a, t, rfl, h⟩
    · rintro ⟨a', t', h, hRest⟩
      cases h
      exact hRest

theorem returns_bind_of {m : Deciding σ ε α} {f : α → Deciding σ ε β} {s s' t : σ} {a : α} {b : β}
    (h : Returns m s a t) : Returns (m >>= f) s b s' ↔ Returns (f a) t b s' := by
  unfold Returns at h ⊢
  rw [run_bind, h]

theorem run_adapt (f : ε → ε') (m : Deciding σ ε α) (s : σ) :
    (m.adapt f).run.run s =
      (match m.run.run s with
      | (.ok a, t) => (.ok a, t)
      | (.error e, t) => (.error (f e), t)) := by
  change ((m.run.run s).1.mapError f, (m.run.run s).2) = _
  rcases m.run.run s with ⟨_ | a, t⟩ <;> rfl

theorem returns_adapt {f : ε → ε'} {m : Deciding σ ε α} {s s' : σ} {a : α} :
    Returns (m.adapt f) s a s' ↔ Returns m s a s' := by
  unfold Returns
  rw [run_adapt]
  rcases m.run.run s with ⟨e | a', t⟩
  · constructor <;> intro h <;> cases h
  · constructor <;> intro h <;> cases h <;> rfl

theorem returns_ofExcept {x : Except ε α} {s s' : σ} {a : α} :
    Returns (MonadExcept.ofExcept x : Deciding σ ε α) s a s' ↔ x = .ok a ∧ s' = s := by
  cases x with
  | error e =>
    constructor
    · intro h
      cases h
    · rintro ⟨h, _⟩
      cases h
  | ok b =>
    constructor
    · intro h
      cases h
      exact ⟨rfl, rfl⟩
    · rintro ⟨h, rfl⟩
      cases h
      rfl

theorem not_returns_throw {e : ε} {s s' : σ} {a : α} :
    ¬ Returns (throw e : Deciding σ ε α) s a s' := by
  intro h
  cases h

@[simp]
theorem returns_get {s t s' : σ} :
    Returns (getThe σ : Deciding σ ε σ) s t s' ↔ t = s ∧ s' = s := by
  constructor
  · intro h
    cases h
    exact ⟨rfl, rfl⟩
  · rintro ⟨rfl, rfl⟩
    rfl

@[simp]
theorem returns_modify {f : σ → σ} {s s' : σ} {u : Unit} :
    Returns (modifyThe σ f : Deciding σ ε Unit) s u s' ↔ s' = f s := by
  constructor
  · intro h
    cases h
    rfl
  · rintro rfl
    rfl

@[simp]
theorem returns_set {s t s' : σ} {u : Unit} :
    Returns (set t : Deciding σ ε Unit) s u s' ↔ s' = t := by
  constructor
  · intro h
    cases h
    rfl
  · rintro rfl
    rfl

theorem returns_modifyGet {f : σ → α × σ} {s s' : σ} {a : α} :
    Returns (modifyGet f : Deciding σ ε α) s a s' ↔ f s = (a, s') := by
  constructor
  · intro h
    unfold Returns at h
    cases h
    rfl
  · intro h
    change (Except.ok (f s).1, (f s).2) = _
    rw [h]

theorem returns_get_bind {f : σ → Deciding σ ε β} {s s' : σ} {b : β} :
    Returns (getThe σ >>= f) s b s' ↔ Returns (f s) s b s' := by
  rw [returns_bind]
  simp only [returns_get, and_assoc, exists_and_left, exists_eq_left]

theorem returns_ofExcept_bind {x : Except ε α} {f : α → Deciding σ ε β} {s s' : σ} {b : β} :
    Returns (MonadExcept.ofExcept x >>= f) s b s' ↔ ∃ a, x = .ok a ∧ Returns (f a) s b s' := by
  rw [returns_bind]
  simp only [returns_ofExcept, and_assoc, exists_and_left, exists_eq_left]

def Fails (m : Deciding σ ε α) (s : σ) (e : ε) : Prop := (m.run.run s).1 = .error e

theorem not_fails_pure {a : α} {s : σ} {e : ε} : ¬ Fails (pure a : Deciding σ ε α) s e := by
  intro h
  cases h

theorem fails_bind {m : Deciding σ ε α} {f : α → Deciding σ ε β} {s : σ} {e : ε} :
    Fails (m >>= f) s e ↔ Fails m s e ∨ ∃ a t, Returns m s a t ∧ Fails (f a) t e := by
  unfold Fails Returns
  rw [run_bind]
  rcases m.run.run s with ⟨e' | a, t⟩
  · constructor
    · intro h
      cases h
      exact .inl rfl
    · rintro (h | ⟨a, t', h, _⟩)
      · cases h
        rfl
      · cases h
  · constructor
    · intro h
      exact .inr ⟨a, t, rfl, h⟩
    · rintro (h | ⟨a', t', h, hRest⟩)
      · cases h
      · cases h
        exact hRest

theorem fails_ofExcept {x : Except ε α} {s : σ} {e : ε} :
    Fails (MonadExcept.ofExcept x : Deciding σ ε α) s e ↔ x = .error e := by
  cases x with
  | error e' =>
    constructor <;> intro h <;> cases h <;> rfl
  | ok a =>
    constructor <;> intro h <;> cases h

theorem fails_ofExcept_bind {x : Except ε α} {f : α → Deciding σ ε β} {s : σ} {e : ε} :
    Fails (MonadExcept.ofExcept x >>= f) s e ↔ x = .error e ∨ ∃ a, x = .ok a ∧ Fails (f a) s e := by
  rw [fails_bind]
  simp only [fails_ofExcept, returns_ofExcept, and_assoc, exists_and_left, exists_eq_left]

theorem Fails.of_adapt {f : ε → ε'} {m : Deciding σ ε α} {s : σ} {e : ε'}
    (h : Fails (m.adapt f) s e) : ∃ e', e = f e' := by
  rw [Fails, run_adapt] at h
  rcases hRun : m.run.run s with ⟨e' | a, t⟩ <;> rw [hRun] at h <;> cases h
  exact ⟨e', rfl⟩

end Deciding

def Answer.IsRight (M : Set Assignment) (assumed interest : List Lit) : Answer → Prop
  | sat model => ∃ ρ ∈ M, Meets ρ assumed ∧ model = modelLits ρ interest
  | unsat _ => ∀ ρ ∈ M, ¬ Meets ρ assumed

theorem meets_modelLits (ρ : Assignment) (interest : List Lit) :
    Meets ρ (modelLits ρ interest) := by
  intro l hl
  obtain ⟨k, _, rfl⟩ := List.mem_map.mp hl
  rw [Lit.holds_iff, Lit.var_withSign, Lit.positive_withSign]

theorem eq_modelLits {ρ : Assignment} {ls interest : List Lit} (h : Meets ρ ls)
    (hVars : ls.map Lit.var = interest.map Lit.var) : ls = modelLits ρ interest := by
  induction ls generalizing interest with
  | nil =>
    rw [List.map_eq_nil_iff.mp hVars.symm]
    rfl
  | cons l ls ih =>
    cases interest with
    | nil => cases hVars
    | cons k interest =>
      obtain ⟨hVar, hVars⟩ := List.cons.inj hVars
      obtain ⟨hl, hls⟩ := List.forall_mem_cons.mp h
      have hHead : l = k.withSign (ρ k.var) := by
        refine Lit.eq_of_var_of_positive (by rw [hVar, Lit.var_withSign]) ?_
        rw [Lit.positive_withSign, ← hVar, (Lit.holds_iff ρ l).mp hl]
      rw [hHead, ih hls hVars]
      rfl

section Randomize

variable {M : Set Assignment} {isModel : List Lit → Bool}
variable (hModel : ∀ ls, isModel ls = true → ∃ ρ ∈ M, Meets ρ ls)
include hModel

theorem randomizeFrom_spec (done rest : List Lit) (k : Coins)
    (h : ∃ ρ ∈ M, Meets ρ (done ++ rest)) :
    (∃ ρ ∈ M, Meets ρ (randomizeFrom isModel done rest k).1) ∧
      (randomizeFrom isModel done rest k).1.map Lit.var = (done ++ rest).map Lit.var := by
  induction rest generalizing done k with
  | nil =>
    rw [List.append_nil] at h ⊢
    exact ⟨h, rfl⟩
  | cons l rest ih =>
    have hKeep (k : Coins) := ih (done ++ [l]) k (by simpa using h)
    rw [List.append_assoc] at hKeep
    rw [randomizeFrom]
    split
    · exact hKeep k
    · obtain ⟨heads, k'⟩ := k.toss
      dsimp only
      split
      · rename_i hFlip
        obtain ⟨_, hFlipped⟩ := Bool.and_eq_true_iff.mp hFlip
        have hNext := ih (done ++ [-l]) k' (by simpa using hModel _ hFlipped)
        simpa using hNext
      · exact hKeep k'

/-- A model varied at random is one that could have been found. -/
theorem randomizeModel_modelLits {ρ : Assignment} (hρ : ρ ∈ M) (interest : List Lit)
    (k : Coins) :
    ∃ ρ' ∈ M, (randomizeModel isModel (modelLits ρ interest) k).1 = modelLits ρ' interest := by
  obtain ⟨⟨ρ', hρ', hMeets⟩, hVars⟩ :=
    randomizeFrom_spec hModel [] (modelLits ρ interest) k ⟨ρ, hρ, meets_modelLits ρ interest⟩
  refine ⟨ρ', hρ', eq_modelLits hMeets (hVars.trans ?_)⟩
  simp [modelLits]

end Randomize

open Deciding in
/-- Each law is about an operation that succeeds. An incremental operation concerns the
topmost set of assignments. -/
class ExactProcedure (σ : Type) [DecisionProcedure σ] where
  frames : σ → List (Set Assignment)
  frames_start : ∀ (keep : List Lit) (nested : Bool) (s : σ),
    frames (DecisionProcedure.start keep nested s) = [Set.univ]
  frames_finish : ∀ s : σ, frames (DecisionProcedure.finish s) = []
  isSat_returns : ∀ {f : Cnf} {s s' : σ} {b : Bool},
    Returns (DecisionProcedure.isSat f) s b s' →
      frames s' = frames s ∧ (b = true ↔ ∃ ρ, ρ ∈ f.models)
  solve_returns : ∀ {f : Cnf} {assumed interest : List Lit} {s s' : σ} {a : Answer},
    Returns (DecisionProcedure.solve f assumed interest) s a s' →
      frames s' = frames s ∧ a.IsRight f.models assumed interest
  frames_keep : ∀ {l : Lit} {s s' : σ} {u : Unit},
    Returns (DecisionProcedure.keep l) s u s' → frames s' = frames s
  frames_addClause : ∀ {c : Clause} {M : Set Assignment} {rest : List (Set Assignment)}
    {s s' : σ} {u : Unit}, frames s = M :: rest →
    Returns (DecisionProcedure.addClause c) s u s' → frames s' = (M ∩ c.models) :: rest
  check_returns : ∀ {assumed : List Lit} {M : Set Assignment} {rest : List (Set Assignment)}
    {s s' : σ} {b : Bool}, frames s = M :: rest →
    Returns (DecisionProcedure.check assumed) s b s' →
      frames s' = M :: rest ∧ (b = true ↔ ∃ ρ ∈ M, Meets ρ assumed)
  query_returns : ∀ {core more interest : List Lit} {M : Set Assignment}
    {rest : List (Set Assignment)} {s s' : σ} {a : Answer}, frames s = M :: rest →
    Returns (DecisionProcedure.query core more interest) s a s' →
      frames s' = M :: rest ∧ a.IsRight M (core ++ more) interest
  frames_push : ∀ {M : Set Assignment} {rest : List (Set Assignment)} {s s' : σ} {u : Unit},
    frames s = M :: rest → Returns DecisionProcedure.push s u s' → frames s' = M :: M :: rest
  frames_pop : ∀ {M : Set Assignment} {rest : List (Set Assignment)} {s s' : σ} {u : Unit},
    frames s = M :: rest → Returns DecisionProcedure.pop s u s' → frames s' = rest

namespace ExactProcedure

variable {σ : Type} [DecisionProcedure σ] [ExactProcedure σ]
variable {M : Set Assignment} {rest : List (Set Assignment)} {s s' : σ} {u : Unit}

/-- A session that starts with the constant. -/
theorem frames_opened {keep : List Lit} {nested : Bool} {t : σ} {u' : Unit}
    (hStart : Deciding.Returns (Deciding.start keep nested : Deciding σ SolverError Unit) s u t)
    (hTop : Deciding.Returns (Deciding.addUnit .top) t u' s') : frames s' = [pinned] := by
  obtain rfl := Deciding.returns_modify.mp hStart
  rw [frames_addClause (frames_start keep nested s) hTop, Set.univ_inter, Clause.models_top]

theorem frames_addCnf {f : Cnf} (hs : frames s = M :: rest)
    (h : Deciding.Returns (Deciding.addCnf f) s u s') :
    frames s' = (M ∩ f.models) :: rest := by
  induction f generalizing s M with
  | nil =>
    obtain ⟨_, rfl⟩ := Deciding.returns_pure.mp h
    have hAll : M ∩ Cnf.models [] = M := Set.inter_eq_left.mpr fun ρ _ => rfl
    rw [hAll, hs]
  | cons c f ih =>
    obtain ⟨_, t, hHead, hTail⟩ := Deciding.returns_bind.mp h
    have hNext := ih (frames_addClause hs hHead) hTail
    have hBoth : M ∩ Cnf.models (c :: f) = M ∩ c.models ∩ Cnf.models f := by
      ext ρ
      simp [Cnf.models, Clause.models, Cnf.holds, and_assoc]
    rw [hBoth, hNext]

theorem frames_addFolded {c : Clause} (hs : frames s = M :: rest) (hPinned : M ⊆ pinned)
    (h : Deciding.Returns (Deciding.addFolded c) s u s') :
    frames s' = (M ∩ c.models) :: rest := by
  unfold Deciding.addFolded at h
  cases hFold : c.fold with
  | none =>
    rw [hFold] at h
    obtain ⟨_, rfl⟩ := Deciding.returns_pure.mp h
    have hAll : M ∩ c.models = M := by
      refine Set.inter_eq_left.mpr fun ρ hρ => (Clause.mem_models_fold (hPinned hρ) c).mp ?_
      rw [hFold]
      rintro d ⟨⟩
    rw [hAll, hs]
  | some d =>
    rw [hFold] at h
    have hSame : M ∩ c.models = M ∩ d.models := by
      ext ρ
      refine and_congr_right fun hρ => ?_
      rw [← Clause.mem_models_fold (hPinned hρ) c, hFold]
      exact ⟨fun hd => hd d rfl, fun hd e he => Option.some.inj he ▸ hd⟩
    rw [hSame]
    exact frames_addClause hs h

theorem frames_forM_addFolded {cs : List Clause} (hs : frames s = M :: rest) (hPinned : M ⊆ pinned)
    (h : Deciding.Returns (cs.forM Deciding.addFolded) s u s') :
    frames s' = (M ∩ Cnf.models cs) :: rest := by
  induction cs generalizing s M with
  | nil =>
    obtain ⟨_, rfl⟩ := Deciding.returns_pure.mp h
    have hAll : M ∩ Cnf.models [] = M := Set.inter_eq_left.mpr fun ρ _ => rfl
    rw [hAll, hs]
  | cons c cs ih =>
    obtain ⟨_, t, hHead, hTail⟩ := Deciding.returns_bind.mp h
    have hNext := ih (frames_addFolded hs hPinned hHead) (Set.inter_subset_left.trans hPinned) hTail
    have hBoth : M ∩ Cnf.models (c :: cs) = M ∩ c.models ∩ Cnf.models cs := by
      ext ρ
      simp [Cnf.models, Clause.models, Cnf.holds, and_assoc]
    rw [hBoth, hNext]

end ExactProcedure

/-- How an enumeration of models proceeds on a set of assignments. Each reading comes with
the clause that blocks it. -/
inductive Enumerates {β : Type} (assumed interest : List Lit)
    (read : Model → Option (Clause × β)) :
    Set Assignment → List (Clause × β) → Set Assignment → Prop where
  | exhausted {M : Set Assignment} (h : ∀ ρ ∈ M, ¬ Meets ρ assumed) :
    Enumerates assumed interest read M [] M
  | refused {M : Set Assignment} {ρ : Assignment} (hρ : ρ ∈ M) (hMeets : Meets ρ assumed)
    (h : read ⟨modelLits ρ interest⟩ = none) : Enumerates assumed interest read M [] M
  | found {M N : Set Assignment} {ρ : Assignment} {block : Clause} {x : β}
    {xs : List (Clause × β)} (hρ : ρ ∈ M) (hMeets : Meets ρ assumed)
    (h : read ⟨modelLits ρ interest⟩ = some (block, x))
    (rest : Enumerates assumed interest read (M ∩ block.models) xs N) :
    Enumerates assumed interest read M ((block, x) :: xs) N

namespace ExactProcedure

variable {σ β : Type} [DecisionProcedure σ] [ExactProcedure σ]
variable {M : Set Assignment} {rest : List (Set Assignment)} {s s' : σ}
variable {assumed interest : List Lit} {read : Model → Option (Clause × β)} {found : List β}

theorem enumerateUpTo_returns {limit : Nat} (hs : frames s = M :: rest)
    (h : Deciding.Returns (Deciding.enumerateUpTo assumed interest read limit) s found s') :
    ∃ xs N, Enumerates assumed interest read M xs N ∧ found = xs.map Prod.snd ∧
      frames s' = N :: rest := by
  induction limit generalizing s M found with
  | zero => exact absurd h Deciding.not_returns_throw
  | succ limit ih =>
    obtain ⟨a, t, hQuery, hRest⟩ := Deciding.returns_bind.mp h
    obtain ⟨ht, hRight⟩ := query_returns hs hQuery
    rw [List.append_nil] at hRight
    cases a with
    | unsat core =>
      obtain ⟨rfl, rfl⟩ := Deciding.returns_pure.mp hRest
      exact ⟨[], M, .exhausted hRight, rfl, ht⟩
    | sat model =>
      obtain ⟨ρ, hρ, hMeets, rfl⟩ := hRight
      cases hRead : read ⟨modelLits ρ interest⟩ with
      | none =>
        simp only [hRead] at hRest
        obtain ⟨rfl, rfl⟩ := Deciding.returns_pure.mp hRest
        exact ⟨[], M, .refused hρ hMeets hRead, rfl, ht⟩
      | some reading =>
        obtain ⟨block, x⟩ := reading
        simp only [hRead] at hRest
        obtain ⟨_, t', hBlock, hMore⟩ := Deciding.returns_bind.mp hRest
        obtain ⟨more, t'', hEnumerate, hReturn⟩ := Deciding.returns_bind.mp hMore
        obtain ⟨rfl, rfl⟩ := Deciding.returns_pure.mp hReturn
        obtain ⟨xs, N, hxs, rfl, hN⟩ := ih (frames_addClause ht hBlock) hEnumerate
        exact ⟨(block, x) :: xs, N, .found hρ hMeets hRead hxs, rfl, hN⟩

theorem enumerate_returns {candidates : Nat} (hs : frames s = M :: rest)
    (h : Deciding.Returns (Deciding.enumerate assumed interest read candidates) s found s') :
    ∃ xs N, Enumerates assumed interest read M xs N ∧ found = xs.map Prod.snd ∧
      frames s' = N :: rest := by
  obtain ⟨t, t', hGet, hRest⟩ := Deciding.returns_bind.mp h
  obtain ⟨rfl, rfl⟩ := Deciding.returns_get.mp hGet
  exact enumerateUpTo_returns hs hRest

end ExactProcedure

namespace Enumerates

variable {β : Type} {assumed interest : List Lit} {read : Model → Option (Clause × β)}
variable {M N : Set Assignment} {xs : List (Clause × β)}

/-- What is left are the assignments that no reading has blocked. -/
theorem mem_iff (h : Enumerates assumed interest read M xs N) (ρ : Assignment) :
    ρ ∈ N ↔ ρ ∈ M ∧ ∀ x ∈ xs, ρ ∈ x.1.models := by
  induction h with
  | exhausted | refused => simp
  | found _ _ _ _ ih =>
    rw [ih, Set.mem_inter_iff, List.forall_mem_cons, and_assoc]

/-- Every reading comes from an assignment that the readings before it do not block. -/
theorem exists_of_mem (h : Enumerates assumed interest read M xs N) {x : Clause × β}
    (hx : x ∈ xs) :
    ∃ ρ ∈ M, Meets ρ assumed ∧ read ⟨modelLits ρ interest⟩ = some x := by
  induction h with
  | exhausted | refused => cases hx
  | @found M N ρ block y ys hρ hMeets hRead _ ih =>
    rcases List.mem_cons.mp hx with rfl | hx
    · exact ⟨ρ, hρ, hMeets, hRead⟩
    · obtain ⟨ρ', hρ', hRest⟩ := ih hx
      exact ⟨ρ', hρ'.1, hRest⟩

theorem pairwise (h : Enumerates assumed interest read M xs N) :
    xs.Pairwise fun x y => ∃ ρ ∈ M, Meets ρ assumed ∧ ρ ∈ x.1.models ∧
      read ⟨modelLits ρ interest⟩ = some y := by
  induction h with
  | exhausted | refused => exact .nil
  | @found M N ρ block x ys _ _ _ hRest ih =>
    rw [List.pairwise_cons]
    refine ⟨fun y hy => ?_, ih.imp fun ⟨ρ', hρ', hMeets, hModels⟩ => ⟨ρ', hρ'.1, hMeets, hModels⟩⟩
    obtain ⟨ρ', hρ', hMeets, hRead⟩ := hRest.exists_of_mem hy
    exact ⟨ρ', hρ'.1, hMeets, hρ'.2, hRead⟩

/-- If no model is refused, then in the end there is none. -/
theorem not_meets (h : Enumerates assumed interest read M xs N)
    (hRead : ∀ ρ ∈ M, Meets ρ assumed → read ⟨modelLits ρ interest⟩ ≠ none) :
    ∀ ρ ∈ N, ¬ Meets ρ assumed := by
  induction h with
  | exhausted h => exact h
  | refused hρ hMeets hNone => exact absurd hNone (hRead _ hρ hMeets)
  | found _ _ _ _ ih => exact ih fun ρ hρ => hRead ρ hρ.1

end Enumerates

end SoftError

import Mathlib.Data.List.Basic
import SoftError.Decision.Backend
import SoftError.Proofs.Decision.Answering

/-!
# Sessions that go on

Where nothing is refused, a computation over a session comes to its end. An enumeration does so
if each reading lowers a rank of the models that are left.
-/

namespace SoftError

namespace Deciding

variable {σ ε ε' α β : Type}

/-- The computation returns, and what it returns has the property. -/
def Yields (m : Deciding σ ε α) (s : σ) (P : α → σ → Prop) : Prop :=
  ∃ a s', Returns m s a s' ∧ P a s'

theorem yields_pure {s : σ} {a : α} {P : α → σ → Prop} (h : P a s) :
    Yields (pure a : Deciding σ ε α) s P := ⟨a, s, returns_pure.mpr ⟨rfl, rfl⟩, h⟩

theorem Yields.bind {m : Deciding σ ε α} {f : α → Deciding σ ε β} {s : σ} {P : α → σ → Prop}
    {Q : β → σ → Prop} (h : Yields m s P) (hf : ∀ a s', P a s' → Yields (f a) s' Q) :
    Yields (m >>= f) s Q := by
  obtain ⟨a, t, hReturns, hP⟩ := h
  obtain ⟨b, s', hReturns', hQ⟩ := hf a t hP
  exact ⟨b, s', returns_bind.mpr ⟨a, t, hReturns, hReturns'⟩, hQ⟩

theorem Yields.imp {m : Deciding σ ε α} {s : σ} {P Q : α → σ → Prop} (h : Yields m s P)
    (hImp : ∀ a s', P a s' → Q a s') : Yields m s Q := by
  obtain ⟨a, s', hReturns, hP⟩ := h
  exact ⟨a, s', hReturns, hImp a s' hP⟩

theorem Yields.adapt {m : Deciding σ ε α} {s : σ} {P : α → σ → Prop} (h : Yields m s P)
    (f : ε → ε') : Yields (m.adapt f) s P := by
  obtain ⟨a, s', hReturns, hP⟩ := h
  exact ⟨a, s', returns_adapt.mpr hReturns, hP⟩

end Deciding

open Deciding ExactProcedure

variable {σ : Type} [DecisionProcedure σ]

theorem yields_finish (s : σ) :
    Yields (Deciding.finish : Deciding σ SolverError Unit) s fun _ _ => True :=
  ⟨(), _, returns_modify.mpr rfl, trivial⟩

open Classical in
/-- The clauses that still exclude something. -/
noncomputable def excluding (blocks : List Clause) (N : Set Assignment) : List Clause :=
  blocks.filter fun block => ∃ ρ ∈ N, ρ ∉ block.models

/-- A clause that has been added excludes nothing any more. -/
theorem length_excluding_lt {blocks : List Clause} {N : Set Assignment} {ρ : Assignment}
    {block : Clause} (hBlock : block ∈ blocks) (hρ : ρ ∈ N) (hNot : ρ ∉ block.models) :
    (excluding blocks (N ∩ block.models)).length < (excluding blocks N).length := by
  classical
  have hSublist : (excluding blocks (N ∩ block.models)).Sublist (excluding blocks N) := by
    refine List.monotone_filter_right blocks fun d hd => ?_
    obtain ⟨ρ', hρ', hNot'⟩ := of_decide_eq_true hd
    exact decide_eq_true ⟨ρ', hρ'.1, hNot'⟩
  refine lt_of_le_of_ne hSublist.length_le fun hLength => ?_
  have hMem : block ∈ excluding blocks N :=
    List.mem_filter.mpr ⟨hBlock, decide_eq_true ⟨ρ, hρ, hNot⟩⟩
  rw [← hSublist.eq_of_length hLength] at hMem
  obtain ⟨ρ', hρ', hNot'⟩ := of_decide_eq_true (List.mem_filter.mp hMem).2
  exact hNot' hρ'.2

theorem holds_of_find? {κ : Type} {ks : List (κ × Lit)} {interest : List Lit}
    (hInterest : ∀ k ∈ ks, k.2 ∈ interest) {ρ : Assignment} (hρ : ρ ∈ pinned) {k : κ × Lit}
    (h : ks.find? (fun k => Model.isTrue ⟨modelLits ρ interest⟩ k.2) = some k) :
    k.2 ∈ ks.map Prod.snd ∧ k.2.holds ρ = true := by
  have hk := List.mem_of_find?_eq_some h
  have hTrue := List.find?_some h
  rw [isTrue_modelLits hρ (.inr (List.mem_map_of_mem (hInterest k hk)))] at hTrue
  exact ⟨List.mem_map_of_mem hk, hTrue⟩

variable [ExactProcedure σ]

/-- The session stands for these sets of assignments and can go on. -/
structure Live (Ready : Bool → σ → Prop) (nested : Bool) (Ms : List (Set Assignment)) (s : σ) :
    Prop where
  ready : Ready nested s
  frames_eq : frames s = Ms

namespace Answering

variable {Ready : Bool → σ → Prop} (h : Answering (fun _ => True) Ready)
  {nested : Bool} {M : Set Assignment} {rest : List (Set Assignment)} {s : σ}
include h

theorem yields_finish (hs : Ready nested s) :
    Yields (Deciding.finish : Deciding σ SolverError Unit) s fun _ => Ready nested :=
  ⟨(), _, returns_modify.mpr rfl, h.finish hs⟩

theorem yields_start (hs : Ready nested s) (keep : List Lit) (nested' : Bool) :
    Yields (Deciding.start keep nested' : Deciding σ SolverError Unit) s
      fun _ => Live Ready nested' [Set.univ] :=
  ⟨(), _, returns_modify.mpr rfl, h.start keep nested' hs, frames_start keep nested' s⟩

theorem yields_addClause (hs : Live Ready nested (M :: rest) s) (c : Clause) :
    Yields (Deciding.addClause c) s fun _ => Live Ready nested ((M ∩ c.models) :: rest) := by
  have hClause := h.addClause (c := c) hs.ready fun _ _ => trivial
  rw [hs.frames_eq] at hClause
  obtain ⟨a, s', hReturns, hReady⟩ := hClause
  exact ⟨a, s', hReturns, hReady, frames_addClause hs.frames_eq hReturns⟩

theorem yields_addTop (hs : Live Ready nested [Set.univ] s) :
    Yields (Deciding.addUnit .top) s fun _ => Live Ready nested [pinned] := by
  have hTop := h.yields_addClause hs [Lit.top]
  rw [Set.univ_inter, Clause.models_top] at hTop
  exact hTop

theorem yields_addCnf (hs : Live Ready nested (M :: rest) s) (f : Cnf) :
    Yields (Deciding.addCnf f) s fun _ => Live Ready nested ((M ∩ f.models) :: rest) := by
  have hCnf := h.addCnf (f := f) hs.ready fun _ _ _ _ => trivial
  have hNone : Refusal.add f (M :: rest) = none := by cases f <;> rfl
  rw [hs.frames_eq, hNone] at hCnf
  obtain ⟨a, s', hReturns, hReady⟩ := hCnf
  exact ⟨a, s', hReturns, hReady, frames_addCnf hs.frames_eq hReturns⟩

theorem yields_addFolded (hs : Live Ready nested (M :: rest) s) (hPinned : M ⊆ pinned)
    (c : Clause) :
    Yields (Deciding.addFolded c) s fun _ => Live Ready nested ((M ∩ c.models) :: rest) := by
  have hAdd : ∃ a s', Returns (Deciding.addFolded c) s a s' ∧ Ready nested s' := by
    rw [Deciding.addFolded]
    cases c.fold with
    | none => exact ⟨(), s, returns_pure.mpr ⟨rfl, rfl⟩, hs.ready⟩
    | some d =>
      obtain ⟨a, s', hReturns, hLive⟩ := h.yields_addClause hs d
      exact ⟨a, s', hReturns, hLive.ready⟩
  obtain ⟨a, s', hReturns, hReady⟩ := hAdd
  exact ⟨a, s', hReturns, hReady, frames_addFolded hs.frames_eq hPinned hReturns⟩

theorem yields_forM_addFolded (hs : Live Ready nested (M :: rest) s) (hPinned : M ⊆ pinned)
    (cs : List Clause) :
    Yields (cs.forM Deciding.addFolded) s
      fun _ s' => ∃ N ⊆ M, Live Ready nested (N :: rest) s' := by
  induction cs generalizing s M with
  | nil => exact yields_pure ⟨M, subset_rfl, hs⟩
  | cons c cs ih =>
    refine (h.yields_addFolded hs hPinned c).bind fun _ _ hs' => ?_
    refine (ih hs' (Set.inter_subset_left.trans hPinned)).imp fun _ _ hLive => ?_
    obtain ⟨N, hN, hLive⟩ := hLive
    exact ⟨N, hN.trans Set.inter_subset_left, hLive⟩

theorem yields_check (hs : Live Ready nested (M :: rest) s) (ls : List Lit) :
    Yields (DecisionProcedure.check ls) s fun _ => Live Ready nested (M :: rest) := by
  have hLits : ∀ l ∈ ls, True := fun _ _ => trivial
  have hCheck := h.check hs.ready hLits
  rw [hs.frames_eq] at hCheck
  obtain ⟨a, s', hReturns, hReady⟩ := hCheck
  exact ⟨a, s', hReturns, hReady, (check_returns hs.frames_eq hReturns).1⟩

theorem yields_query (hs : Live Ready nested (M :: rest) s) (core more interest : List Lit) :
    Yields (DecisionProcedure.query core more interest) s fun a s' =>
      Live Ready nested (M :: rest) s' ∧ a.IsRight M (core ++ more) interest := by
  have hLits : ∀ l ∈ core ++ more ++ interest, True := fun _ _ => trivial
  have hQuery := h.query hs.ready hLits
  rw [hs.frames_eq] at hQuery
  obtain ⟨a, s', hReturns, hReady⟩ := hQuery
  obtain ⟨hFrames, hRight⟩ := query_returns hs.frames_eq hReturns
  exact ⟨a, s', hReturns, ⟨hReady, hFrames⟩, hRight⟩

theorem yields_push (hs : Live Ready true (M :: rest) s) :
    Yields DecisionProcedure.push s fun _ => Live Ready true (M :: M :: rest) := by
  have hPush := h.push hs.ready
  rw [hs.frames_eq] at hPush
  obtain ⟨a, s', hReturns, hReady⟩ := hPush
  exact ⟨a, s', hReturns, hReady, frames_push hs.frames_eq hReturns⟩

theorem yields_pop {N : Set Assignment} (hs : Live Ready nested (M :: N :: rest) s) :
    Yields DecisionProcedure.pop s fun _ => Live Ready nested (N :: rest) := by
  have hPop := h.pop hs.ready
  rw [hs.frames_eq] at hPop
  obtain ⟨a, s', hReturns, hReady⟩ := hPop
  exact ⟨a, s', hReturns, hReady, frames_pop hs.frames_eq hReturns⟩

theorem yields_enumerateUpTo {β : Type} {assumed interest : List Lit}
    {read : Model → Option (Clause × β)} (rank : Set Assignment → Nat)
    (hRank : ∀ N ⊆ pinned, ∀ ρ ∈ N, ∀ block x, read ⟨modelLits ρ interest⟩ = some (block, x) →
      rank (N ∩ Clause.models block) < rank N)
    (hs : Live Ready nested (M :: rest) s) (hPinned : M ⊆ pinned) {limit : Nat}
    (hLimit : rank M < limit) :
    Yields (Deciding.enumerateUpTo assumed interest read limit) s
      fun _ s' => ∃ N ⊆ M, Live Ready nested (N :: rest) s' := by
  induction limit generalizing s M with
  | zero => exact absurd hLimit (Nat.not_lt_zero _)
  | succ limit ih =>
    refine (h.yields_query hs assumed [] interest).bind fun a t ⟨ht, hRight⟩ => ?_
    cases a with
    | unsat core => exact yields_pure ⟨M, subset_rfl, ht⟩
    | sat model =>
      obtain ⟨ρ, hρ, -, rfl⟩ := hRight
      dsimp only
      cases hRead : read ⟨modelLits ρ interest⟩ with
      | none => exact yields_pure ⟨M, subset_rfl, ht⟩
      | some reading =>
        obtain ⟨block, x⟩ := reading
        refine (h.yields_addClause ht block).bind fun _ t' ht' => ?_
        have hLess := hRank M hPinned ρ hρ block x hRead
        refine (ih ht' (Set.inter_subset_left.trans hPinned) ?_).bind fun _ _ hLive => ?_
        · exact lt_of_lt_of_le hLess (Nat.le_of_lt_succ hLimit)
        · obtain ⟨N, hN, hLive⟩ := hLive
          exact yields_pure ⟨N, hN.trans Set.inter_subset_left, hLive⟩

/-- An enumeration in which each reading comes with one of the given clauses, which its model
violates. -/
theorem yields_enumerate_blocks {β : Type} {assumed interest : List Lit}
    {read : Model → Option (Clause × β)} {blocks : List Clause}
    (hRead : ∀ ρ ∈ pinned, ∀ block x, read ⟨modelLits ρ interest⟩ = some (block, x) →
      block ∈ blocks ∧ ρ ∉ block.models)
    (hs : Live Ready nested (M :: rest) s) (hPinned : M ⊆ pinned) {candidates : Nat}
    (hCandidates : blocks.length ≤ candidates) :
    Yields (Deciding.enumerate assumed interest read candidates) s
      fun _ s' => ∃ N ⊆ M, Live Ready nested (N :: rest) s' := by
  have hRank : ∀ N ⊆ pinned, ∀ ρ ∈ N, ∀ block x, read ⟨modelLits ρ interest⟩ = some (block, x) →
      (excluding blocks (N ∩ Clause.models block)).length < (excluding blocks N).length := by
    intro N hN ρ hρ block x hSome
    obtain ⟨hBlock, hNot⟩ := hRead ρ (hN hρ) block x hSome
    exact length_excluding_lt hBlock hρ hNot
  have hLimit : (excluding blocks M).length ≤ blocks.length := List.length_filter_le _ _
  obtain ⟨a, s', hReturns, hLive⟩ := h.yields_enumerateUpTo
    (fun N => (excluding blocks N).length) hRank hs hPinned
    (show (excluding blocks M).length < candidates + DecisionProcedure.backlog s + 1 by omega)
  exact ⟨a, s', returns_get_bind.mpr hReturns, hLive⟩

/-- An enumeration in which each reading excludes a selector that was high. -/
theorem yields_enumerate {β : Type} {assumed interest : List Lit}
    {read : Model → Option (Clause × β)} {selectors : List Lit}
    (hRead : ∀ ρ ∈ pinned, ∀ block x, read ⟨modelLits ρ interest⟩ = some (block, x) →
      ∃ l ∈ selectors, block = [-l] ∧ l.holds ρ = true)
    (hs : Live Ready nested (M :: rest) s) (hPinned : M ⊆ pinned) {candidates : Nat}
    (hCandidates : selectors.length ≤ candidates) :
    Yields (Deciding.enumerate assumed interest read candidates) s
      fun _ s' => ∃ N ⊆ M, Live Ready nested (N :: rest) s' := by
  refine h.yields_enumerate_blocks (fun ρ hρ block x hSome => ?_) hs hPinned
    ((List.length_map fun l => [-l]).trans_le hCandidates)
  obtain ⟨l, hl, rfl, hHolds⟩ := hRead ρ hρ block x hSome
  refine ⟨List.mem_map_of_mem (f := fun l => [-l]) hl, fun hModel => ?_⟩
  exact (@Clause.mem_models_negate ρ [l]).mp hModel (by simpa [Meets] using hHolds)

end Answering

section Options

variable {o : Options} {β : Type}
  {m : {σ : Type} → [DecisionProcedure σ] → Deciding σ AnalysisError β}

/-- What holds of a computation with any exact procedure holds with the one that the options
ask for. -/
theorem decide_returns {x : β} {P : β → Prop} (hP : ∀ {σ : Type} [DecisionProcedure σ]
      [ExactProcedure σ] {st st' : σ} {x : β}, Returns m st x st' → P x)
    (h : o.decide m = .ok x) : P x := by
  rw [Options.decide] at h
  split at h
  · exact hP (returns_of_toOption (by rw [h]; rfl))
  · exact hP (returns_of_toOption (by rw [h]; rfl))

theorem decide_fails {e : AnalysisError} {P : AnalysisError → Prop}
    (hP : ∀ {σ : Type} [DecisionProcedure σ] {st : σ} {e : AnalysisError}, Fails m st e → P e)
    (h : o.decide m = .error e) : P e := by
  rw [Options.decide] at h
  split at h <;> exact hP h

/-- The search refuses nothing. -/
theorem exists_decide_eq_ok (hBackend : o.backend = .search)
    (h : ∀ {σ : Type} [DecisionProcedure σ] [ExactProcedure σ] {Ready : Bool → σ → Prop}
      {nested : Bool} {s : σ}, Answering (fun _ => True) Ready → Ready nested s →
        Yields m s fun _ _ => True) : ∃ x, o.decide m = .ok x := by
  obtain ⟨x, s', hReturns, -⟩ := h (s := SearchSession.ofOptions o) SearchSession.answering rfl
  refine ⟨x, ?_⟩
  rw [Options.decide, hBackend]
  exact congrArg Prod.fst (show _ = _ from hReturns)

end Options

end SoftError

import SoftError.Proofs.Decision.Search
import SoftError.Proofs.Vulnerability.IncrementalStep

/-!
# Exactness of the incremental search

Each model found in a step is read back as the trace of the fault that it chooses, and once a
latch is found it is excluded. As the enumeration of a step goes on until there is no model
left, a latch that is not excluded has no error up to that step.
-/

namespace SoftError.Vulnerability.Incremental

variable {c : Circuit} {M N : Set Assignment} {past : List (List Level)}
  {all remaining : List Candidate} {r r' : Runs} {levels : List Level} {x : Extension}
  {s : Stimulus}

theorem mem_without {ts : List ErrorTrace} {k : Candidate} :
    k ∈ without ts remaining ↔ k ∈ remaining ∧ ∀ t ∈ ts, t.latch ≠ k.1.signal := by
  simp [without]

/-- The trace of a chosen fault. -/
def Runs.traceOf (r : Runs) (k : Candidate) (time : Nat) (ρ : Assignment) : ErrorTrace where
  latch := k.1.signal
  flip := time
  error := r.flips.length - 1
  inputs := r.values ρ

section Grows

variable (h : Grows c M past levels all remaining r x r')
include h

theorem Grows.models_eq : (r'.advance c x.off).encoder.models (told M x) = told M x :=
  Encoder.models_eq_of_pending h.handed

theorem Grows.length : r'.flips.length = past.length + 1 := by
  have hLength := h.tracks.length
  rwa [List.length_append] at hLength

theorem Grows.follows {ρ : Assignment} (hρ : ρ ∈ told M x) :
    Follows c (past ++ [levels]) all remaining (r'.advance c x.off) ρ :=
  h.tracks.sound ρ (by rwa [h.models_eq])

/-- An assignment picks a latch that remains, or none of these. -/
theorem Grows.exists_possible {ρ : Assignment} (hρ : ρ ∈ told M x) :
    ∃ j, Picks ρ (selection remaining) j ∧ ∀ time, Possible c remaining ⟨j, time⟩ := by
  obtain ⟨j, hPicks, _⟩ := h.tracks.candidates.exists_picks (h.follows hρ).atMostOne
  by_cases hj : j ∈ remaining.map fun k => k.1.index
  · exact ⟨j, hPicks.subset (h.tracks.sublist.map _).subset, fun _ => .inl hj⟩
  · refine ⟨c.latches.length, fun y hy => ?_, fun _ => .inr (Nat.le_refl _)⟩
    obtain ⟨k, hk, rfl⟩ := List.mem_map.mp hy
    have hMem := h.tracks.sublist.subset hk
    rw [hPicks.holds hMem, decide_eq_decide]
    refine iff_of_false (fun hEq => hj ?_) (Nat.ne_of_lt (h.tracks.candidates.index_lt hMem))
    exact hEq ▸ List.mem_map_of_mem (f := fun k => k.1.index) hk

/-- A model whose check is switched on chooses a fault that errs. -/
theorem Grows.exists_errs {ρ : Assignment} (hρ : ρ ∈ told M x)
    (hMeets : Meets ρ (r'.done ++ [-x.off])) :
    ∃ k ∈ remaining, ∃ time < r'.flips.length,
      Chooses remaining r' ρ ⟨k.1.index, time⟩ (r'.values ρ) ∧
      Errs c (past ++ [levels]) ⟨k.1.index, time⟩ (r'.values ρ) := by
  have hFollows := h.follows hρ
  have hOff : x.off.holds ρ = false := by
    have hLast := (meets_append.mp hMeets).2 (-x.off) (List.mem_singleton_self _)
    rwa [Lit.holds_neg, Bool.not_eq_true'] at hLast
  obtain ⟨j, hLatch, hPossible⟩ := h.exists_possible hρ
  obtain ⟨time, _, hTime⟩ := exists_picks_numbered hFollows.atMostOnce
  have hChooses : Chooses remaining r' ρ ⟨j, time⟩ (r'.values ρ) := ⟨hLatch, hTime, rfl⟩
  have hErrs := h.wrong ρ hρ hOff _ _ (hPossible time) hChooses
  obtain ⟨hStruck, hExists⟩ := hErrs.strikes
  obtain ⟨k, hk, rfl⟩ := List.mem_map.mp ((hPossible time).resolve_right (Nat.not_le_of_lt hExists))
  have hLength : (past ++ [levels]).length = (r'.values ρ).length := hFollows.admits.length_eq
  rw [List.length_append, List.length_singleton] at hLength
  exact ⟨k, hk, time, by rwa [h.length, hLength], hChooses, hErrs⟩

/-- A model is read as the trace of the fault that it chooses. -/
theorem Grows.read_eq (hSteps : s.steps.take (past.length + 1) = past ++ [levels])
    {ρ : Assignment} (hρ : ρ ∈ told M x) {k : Candidate} (hk : k ∈ remaining) {time : Nat}
    (hTime : time < r'.flips.length)
    (hChooses : Chooses remaining r' ρ ⟨k.1.index, time⟩ (r'.values ρ)) :
    r'.read all s ⟨modelLits ρ (r'.interest all)⟩ = some ([-k.2], r'.traceOf k time ρ) := by
  have hPinned : ρ ∈ pinned := h.tracks.valid.pinned hρ
  have hTrue : ∀ l ∈ r'.interest all,
      Model.isTrue ⟨modelLits ρ (r'.interest all)⟩ l = l.holds ρ :=
    fun l hl => isTrue_modelLits hPinned (.inr (List.mem_map_of_mem hl))
  have hMem := h.tracks.sublist.subset hk
  obtain ⟨j, hPicks, _⟩ := h.tracks.candidates.exists_picks (h.follows hρ).atMostOne
  have hj : k.1.index = j := by
    have hHigh := hPicks.holds hMem
    rw [hChooses.latch.holds hk,
      decide_eq_true rfl] at hHigh
    exact of_decide_eq_true hHigh.symm
  have hFind := h.tracks.candidates.find?_of_picks
    (p := Model.isTrue ⟨modelLits ρ (r'.interest all)⟩)
    (fun k hk => hTrue _ (List.mem_append_left _ (List.mem_append_left _
      (List.mem_map_of_mem hk)))) hMem (hj ▸ hPicks)
  have hIdx := findIdx?_of_picks (p := Model.isTrue ⟨modelLits ρ (r'.interest all)⟩)
    (fun l hl => hTrue l (List.mem_append_left _ (List.mem_append_right _ hl)))
    hChooses.time hTime
  have hAdmits : (s.take r'.flips.length).Admits (r'.values ρ) := by
    change AdmitsSteps (s.steps.take r'.flips.length) _
    rw [h.length, hSteps]
    exact (h.follows hρ).admits
  have hValue : ∀ ls ∈ r'.inputs, ∀ l ∈ ls,
      Model.value ⟨modelLits ρ (r'.interest all)⟩ l = some (l.holds ρ) := fun ls hls l hl =>
    value_modelLits hPinned ((h.tracks.known ls hls l hl).imp_right fun hOpened =>
      List.mem_map_of_mem (List.mem_append_right _ hOpened))
  have hSettle := Stimulus.bools_settle hAdmits hValue
  rw [Runs.read, hFind, Option.map_some, hIdx, hSettle]
  rfl

end Grows

/-- Excludes all candidates but some. -/
theorem Tracks.exclude (h : Tracks c M past all remaining r) {ks : List Candidate}
    (hks : ks.Sublist remaining)
    (hN : ∀ ρ, ρ ∈ N ↔ ρ ∈ M ∧ ∀ k ∈ remaining, k ∉ ks → k.2.holds ρ = false) :
    Tracks c N past all ks r := by
  have hInter : N = M ∩ {ρ | ∀ k ∈ remaining, k ∉ ks → k.2.holds ρ = false} := Set.ext hN
  have hModels : ∀ ρ, ρ ∈ r.encoder.models N ↔
      ρ ∈ r.encoder.models M ∧ ∀ k ∈ remaining, k ∉ ks → k.2.holds ρ = false := by
    intro ρ
    simp only [Encoder.models, Set.mem_inter_iff, hN]
    tauto
  refine ⟨h.candidates, hks.trans h.sublist, ?_, h.alike, h.selectorsBelow, h.flipsBelow,
    h.doneBelow, h.inputsBelow, h.goldenBelow, h.faultyBelow, h.known, h.length, ?_, ?_⟩
  · rw [hInter]
    refine h.valid.inter fun ρ hρ ρ' hAgree k hk hNot => ?_
    rw [← hAgree.holds (h.selectorsBelow k (h.sublist.subset hk))]
    exact hρ k hk hNot
  · intro ρ hρ
    obtain ⟨hMem, hLow⟩ := (hModels ρ).mp hρ
    have hFollows := h.sound ρ hMem
    refine ⟨hFollows.atMostOne, hFollows.atMostOnce, hFollows.admits,
      fun f inputs hf hChooses => ?_⟩
    refine hFollows.runs f inputs (hf.imp_left fun hMem => (hks.map _).subset hMem)
      ⟨fun y hy => ?_, hChooses.time, hChooses.values⟩
    obtain ⟨k, hk, rfl⟩ := List.mem_map.mp hy
    -- an excluded candidate is not selected, and the fault is none of its own
    by_cases hMem : k ∈ ks
    · exact hChooses.latch.holds hMem
    · rw [hLow k hk hMem, eq_comm, decide_eq_false_iff_not]
      exact (h.candidates.sublist h.sublist).index_ne hks hf hk hMem
  · intro k hk time inputs hAdmits hQuiet
    obtain ⟨ρ, hρ, hChooses, hDone⟩ := h.complete k (hks.subset hk) time inputs hAdmits hQuiet
    refine ⟨ρ, (hModels ρ).mpr ⟨hρ, fun k' hk' hNot => ?_⟩,
      ⟨hChooses.latch.subset (hks.map _).subset, hChooses.time, hChooses.values⟩, hDone⟩
    rw [hChooses.latch.holds hk']
    refine decide_eq_false fun hEq => hNot ?_
    rwa [(h.candidates.sublist h.sublist).eq_of_index hk' (hks.subset hk) hEq]

section Enumerate

variable (h : Grows c M past levels all remaining r x r')
  (hSteps : s.steps.take (past.length + 1) = past ++ [levels])
  {found : List (Clause × ErrorTrace)}
  (hFound : Enumerates (r'.done ++ [-x.off]) (r'.interest all) (r'.read all s) (told M x) found N)
include h hSteps hFound

theorem Grows.exists_of_mem {y : Clause × ErrorTrace} (hy : y ∈ found) :
    ∃ k ∈ remaining, ∃ time < r'.flips.length, ∃ ρ ∈ told M x, y = ([-k.2], r'.traceOf k time ρ) ∧
      Errs c (past ++ [levels]) ⟨k.1.index, time⟩ (r'.values ρ) := by
  obtain ⟨ρ, hρ, hMeets, hRead⟩ := hFound.exists_of_mem hy
  obtain ⟨k, hk, time, hTime, hChooses, hErrs⟩ := h.exists_errs hρ hMeets
  rw [h.read_eq hSteps hρ hk hTime hChooses] at hRead
  exact ⟨k, hk, time, hTime, ρ, hρ, (Option.some.inj hRead).symm, hErrs⟩

theorem Grows.nodup_latches : (found.map fun y => y.2.latch).Nodup := by
  rw [List.Nodup, List.pairwise_map]
  refine (hFound.pairwise).imp_of_mem fun {y z} hy hz => ?_
  rintro ⟨ρ, hρ, hMeets, hBlock, hRead⟩ hEq
  obtain ⟨k, hk, time, _, ρ', _, rfl, _⟩ := h.exists_of_mem hSteps hFound hy
  obtain ⟨k', hk', time', hTime', hChooses, _⟩ := h.exists_errs hρ hMeets
  rw [h.read_eq hSteps hρ hk' hTime' hChooses] at hRead
  obtain rfl := Option.some.inj hRead
  have hAll := h.tracks.sublist.subset
  have hIndex := (h.tracks.candidates.index_eq_iff (hAll hk) (hAll hk')).mpr hEq
  have hHigh := hChooses.latch.holds hk
  obtain ⟨l, hl, hLow⟩ := Clause.mem_models.mp hBlock
  rw [List.mem_singleton.mp hl, Lit.holds_neg, hHigh, decide_eq_true hIndex] at hLow
  cases hLow

/-- The latches that are found are those excluded by the blocking clauses. -/
theorem Grows.mem_iff {ρ : Assignment} : ρ ∈ N ↔ ρ ∈ told M x ∧
    ∀ k ∈ remaining, k ∉ without (found.map Prod.snd) remaining → k.2.holds ρ = false := by
  rw [hFound.mem_iff]
  refine and_congr_right fun _ => ⟨fun hBlocks k hk hNot => ?_, fun hLow y hy => ?_⟩
  · have hTraced : ∃ t ∈ found.map Prod.snd, t.latch = k.1.signal := by
      by_contra hNone
      exact hNot (mem_without.mpr ⟨hk, fun t ht hEq => hNone ⟨t, ht, hEq⟩⟩)
    obtain ⟨t, ht, hSignal⟩ := hTraced
    obtain ⟨y, hy, rfl⟩ := List.mem_map.mp ht
    obtain ⟨k', hk', time, _, ρ', _, rfl, _⟩ := h.exists_of_mem hSteps hFound hy
    have hAll := h.tracks.sublist.subset
    have hEq := h.tracks.candidates.eq_of_index (hAll hk') (hAll hk)
      ((h.tracks.candidates.index_eq_iff (hAll hk') (hAll hk)).mpr hSignal)
    obtain ⟨l, hl, hHolds⟩ := Clause.mem_models.mp (hBlocks _ hy)
    rwa [List.mem_singleton.mp hl, hEq, Lit.holds_neg, Bool.not_eq_true'] at hHolds
  · obtain ⟨k, hk, time, _, ρ', _, rfl, _⟩ := h.exists_of_mem hSteps hFound hy
    refine Clause.mem_models.mpr ⟨_, List.mem_singleton_self _, ?_⟩
    rw [Lit.holds_neg, Bool.not_eq_true']
    refine hLow k hk fun hMem => ?_
    exact (mem_without.mp hMem).2 _ (List.mem_map_of_mem (f := Prod.snd) hy) rfl

theorem Grows.tracks_without :
    Tracks c N (past ++ [levels]) all (without (found.map Prod.snd) remaining)
      (r'.advance c x.off) :=
  h.tracks.exclude List.filter_sublist fun _ => h.mem_iff hSteps hFound

/-- A latch without a trace does not err in the step. -/
theorem Grows.not_errs {k : Candidate} (hk : k ∈ without (found.map Prod.snd) remaining)
    {time : Nat} {inputs : List (List Bool)} (hAdmits : AdmitsSteps (past ++ [levels]) inputs) :
    ¬ Errs c (past ++ [levels]) ⟨k.1.index, time⟩ inputs := by
  intro hErrs
  obtain ⟨hRemaining, hNone⟩ := mem_without.mp hk
  obtain ⟨ρ, hρ, hChooses, hMeets⟩ := h.found k hRemaining time inputs hAdmits hErrs
  have hRead : ∀ ρ ∈ told M x, Meets ρ (r'.done ++ [-x.off]) →
      r'.read all s ⟨modelLits ρ (r'.interest all)⟩ ≠ none := by
    intro ρ hρ hMeets
    obtain ⟨k, hk, time, hTime, hChooses, _⟩ := h.exists_errs hρ hMeets
    rw [h.read_eq hSteps hρ hk hTime hChooses]
    exact Option.some_ne_none _
  refine hFound.not_meets hRead ρ ((h.mem_iff hSteps hFound).mpr ⟨hρ, fun k' hk' hNot => ?_⟩) hMeets
  have hAll := h.tracks.sublist.subset
  rw [hChooses.latch.holds hk']
  refine decide_eq_false fun hEq => hNot ?_
  rwa [h.tracks.candidates.eq_of_index (hAll hk') (hAll hRemaining) hEq]

theorem Grows.finds (hImmune : ∀ k ∈ remaining, Immune c past k.1.index) :
    Finds (Shows c s.steps) (fun k => Immune c (past ++ [levels]) k.index)
      (remaining.map Prod.fst) (found.map Prod.snd) := by
  refine ⟨fun t ht => ?_, ?_, fun k hk hNone => ?_⟩
  · obtain ⟨y, hy, rfl⟩ := List.mem_map.mp ht
    obtain ⟨k, hk, time, hTime, ρ, hρ, rfl, hErrs⟩ := h.exists_of_mem hSteps hFound hy
    have hTrace : r'.traceOf k time ρ = ⟨k.1.signal, time, past.length, r'.values ρ⟩ := by
      rw [Runs.traceOf, h.length, Nat.add_sub_cancel]
    refine ⟨k.1, List.mem_map_of_mem hk, rfl, ?_⟩
    rw [hTrace]
    exact (hImmune k hk).shows hSteps (h.follows hρ).admits hErrs
  · rw [List.map_map]
    exact h.nodup_latches hSteps hFound
  · obtain ⟨k, hRemaining, rfl⟩ := List.mem_map.mp hk
    exact (hImmune k hRemaining).snoc fun time inputs hAdmits =>
      h.not_errs hSteps hFound (mem_without.mpr ⟨hRemaining, hNone⟩) hAdmits

end Enumerate

section Search

open Deciding ExactProcedure

variable {σ : Type} [DecisionProcedure σ] [ExactProcedure σ] {st st' : σ}
  {stack : List (Set Assignment)} {ts : List ErrorTrace}

theorem mem_map_without {k : Component} :
    k ∈ (without ts remaining).map Prod.fst ↔
      k ∈ remaining.map Prod.fst ∧ ∀ t ∈ ts, t.latch ≠ k.signal := by
  simp only [List.mem_map, mem_without]
  constructor
  · rintro ⟨k, ⟨hk, hNone⟩, rfl⟩
    exact ⟨⟨k, hk, rfl⟩, hNone⟩
  · rintro ⟨⟨k, hk, rfl⟩, hNone⟩
    exact ⟨k, ⟨hk, hNone⟩, rfl⟩

/-- The induction is on the steps that are left; the session tracks those before. -/
theorem onSteps_returns {rest : List (List Level)} (hSteps : s.steps = past ++ rest)
    (hWidth : s.width = c.inputs.length) (h : Tracks c M past all remaining r)
    (hImmune : ∀ k ∈ remaining, Immune c past k.1.index) (hFrames : frames st = M :: stack)
    (hReturns : Returns (onSteps c all s rest r remaining) st ts st') :
    Finds (Shows c s.steps) (fun k => Immune c s.steps k.index) (remaining.map Prod.fst) ts := by
  induction rest generalizing past r remaining M st ts with
  | nil =>
    obtain ⟨rfl, rfl⟩ := returns_pure.mp hReturns
    rw [hSteps, List.append_nil]
    refine .nil fun k hMem => ?_
    obtain ⟨k, hk, rfl⟩ := List.mem_map.mp hMem
    exact hImmune k hk
  | cons levels rest ih =>
    have hLength : levels.length = c.inputs.length :=
      (s.width_eq levels (hSteps ▸ by simp)).trans hWidth
    have hGrows := h.step hLength
    have hTake : s.steps.take (past.length + 1) = past ++ [levels] := by
      rw [hSteps, List.take_append, List.take_of_length_le (Nat.le_succ _)]
      simp
    obtain ⟨x, r', hEq⟩ : ∃ x r', r.step c remaining levels = (x, r') := ⟨_, _, rfl⟩
    rw [hEq] at hGrows
    simp only [onSteps, hEq] at hReturns
    obtain ⟨_, st₁, hClauses, hReturns⟩ := returns_bind.mp hReturns
    obtain ⟨_, st₂, hDifference, hReturns⟩ := returns_bind.mp hReturns
    obtain ⟨found, st₃, hEnumerate, hReturns⟩ := returns_bind.mp hReturns
    have hTold : frames st₂ = told M x :: stack :=
      frames_addFolded (frames_addCnf hFrames hClauses)
        (Set.inter_subset_left.trans h.valid.pinned) hDifference
    obtain ⟨xs, N, hFound, rfl, hRest⟩ := enumerate_returns hTold hEnumerate
    have hFinds := hGrows.finds hTake hFound hImmune
    split at hReturns
    · rename_i hEmpty
      obtain ⟨rfl, rfl⟩ := returns_pure.mp hReturns
      refine ⟨hFinds.shows, hFinds.nodup, fun k hk hNone => ?_⟩
      have hMem := mem_map_without.mpr ⟨hk, hNone⟩
      rw [List.isEmpty_iff.mp hEmpty] at hMem
      cases hMem
    · obtain ⟨more, st₄, hMore, hReturns⟩ := returns_bind.mp hReturns
      obtain ⟨rfl, rfl⟩ := returns_pure.mp hReturns
      have hLater := ih (show s.steps = (past ++ [levels]) ++ rest by rw [hSteps]; simp)
        (hGrows.tracks_without hTake hFound) (fun k hk => ?_) hRest hMore
      · exact (hFinds.append hLater fun k => mem_map_without).imp (fun _ _ => id) fun _ => And.right
      · obtain ⟨hMem, hNone⟩ := mem_without.mp hk
        exact hFinds.others k.1 (List.mem_map_of_mem hMem) hNone

/-- At the start of a session any latch that remains can be selected. -/
theorem tracks_initial {checked : List Component} {p : VarPool}
    (hLatch : ∀ k ∈ checked, ∃ l, c.latches[k.index]? = some l ∧ k.signal = l.signal)
    (hNodup : (checked.map Component.index).Nodup)
    (hAll : all = checked.zip (p.freshList checked.length).1) (hSublist : remaining.Sublist all) :
    Tracks c pinned [] all remaining (.initial c
      (({ pool := (p.freshList checked.length).2 } : Encoder).atMostOne (all.map Prod.snd))) := by
  obtain ⟨e, he⟩ : ∃ e : Encoder, e = { pool := (p.freshList checked.length).2 } := ⟨_, rfl⟩
  rw [← he]
  have hValid : e.Valid pinned := by
    rw [he]
    exact Encoder.valid_empty rfl fun cache hSome => by cases hSome
  have hCandidates : Candidates c all :=
    hAll ▸ candidates_zip hLatch hNodup (p.length_freshList _).symm
  have hSelectors : ∀ k ∈ all, k.2.var < e.nextVar := by
    intro k hk
    rw [hAll] at hk
    rw [he]
    exact (OneHot.var_lt_of_mem_freshList (List.of_mem_zip hk).2).2
  have hBelow : ∀ l ∈ all.map Prod.snd, l.var < e.nextVar := List.forall_mem_map.mpr hSelectors
  have hConstrains := hValid.atMostOne hBelow
  have hTwo := (e.atMostOne (all.map Prod.snd)).two_le_nextVar
  refine ⟨hCandidates, hSublist, hConstrains.valid, ?_,
    fun k hk => lt_of_lt_of_le (hSelectors k hk) hConstrains.le, List.forall_mem_nil _,
    List.forall_mem_nil _, List.forall_mem_nil _, Table.below_initial hTwo c,
    Table.below_initial hTwo c, List.forall_mem_nil _, rfl, ?_, ?_⟩
  · exact Alike.initial (hConstrains.plain (he ▸ rfl)) rfl
  · intro ρ hρ
    have hev := evaluation_holds (hConstrains.valid.mem_pinned hρ)
    refine ⟨(hConstrains.subset hρ).2, .nil, .nil, fun f inputs _ hChooses => ?_⟩
    obtain rfl : [] = inputs := hChooses.values
    exact ⟨Table.values_initial hev c, Table.values_initial hev c, .nil⟩
  · intro k hk time inputs hAdmits _
    cases hAdmits
    obtain ⟨ρ, hρ, hPicks⟩ := exists_selecting hNodup (hAll ▸ hSublist.subset hk)
    rw [← hAll] at hPicks
    have hOne := hCandidates.atMostOne_of_picks hPicks
    have hMem : ρ ∈ e.models pinned := by
      rw [he, Encoder.models_eq_of_pending rfl]
      exact hρ
    -- the selectors keep their values when the counters get theirs
    obtain ⟨ρ', hρ', hAgree⟩ := hConstrains.lift ρ ⟨hMem, hOne⟩
    refine ⟨ρ', hρ', ⟨?_, List.forall_mem_nil _, rfl⟩, List.forall_mem_nil _⟩
    exact (hPicks.congr hAgree (var_lt_of_mem_selection hSelectors)).subset
      (hSublist.map _).subset

/-- What the traces of a search over several stimuli show. -/
def Exact (c : Circuit) (stimuli : List Stimulus) (ks : List Component) (ts : List ErrorTrace) :
    Prop :=
  Finds (fun k t => ∃ s ∈ stimuli, Shows c s.steps k t)
    (fun k => ∀ s ∈ stimuli, Immune c s.steps k.index) ks ts

theorem onStimuli_returns {checked : List Component} {p : VarPool} {stimuli : List Stimulus}
    (hLatch : ∀ k ∈ checked, ∃ l, c.latches[k.index]? = some l ∧ k.signal = l.signal)
    (hNodup : (checked.map Component.index).Nodup)
    (hAll : all = checked.zip (p.freshList checked.length).1) (hSublist : remaining.Sublist all)
    (hWidth : ∀ s ∈ stimuli, s.width = c.inputs.length)
    (hReturns : Returns (onStimuli c all (p.freshList checked.length).2 stimuli remaining)
      st ts st') : Exact c stimuli (remaining.map Prod.fst) ts := by
  induction stimuli generalizing remaining st ts with
  | nil =>
    obtain ⟨rfl, rfl⟩ := returns_pure.mp hReturns
    exact .nil fun k _ s hs => by cases hs
  | cons s stimuli ih =>
    obtain ⟨hFirst, hWidth⟩ := List.forall_mem_cons.mp hWidth
    rw [onStimuli] at hReturns
    split at hReturns
    · rename_i hEmpty
      obtain ⟨rfl, rfl⟩ := returns_pure.mp hReturns
      rw [List.isEmpty_iff.mp hEmpty]
      exact .nil (List.forall_mem_nil _)
    · obtain ⟨_, st₁, hStart, hReturns⟩ := returns_bind.mp hReturns
      obtain ⟨_, st₂, hTop, hReturns⟩ := returns_bind.mp hReturns
      obtain ⟨found, st₃, hFound, hReturns⟩ := returns_bind.mp hReturns
      obtain ⟨_, st₄, _, hReturns⟩ := returns_bind.mp hReturns
      obtain ⟨more, st₅, hMore, hReturns⟩ := returns_bind.mp hReturns
      obtain ⟨rfl, rfl⟩ := returns_pure.mp hReturns
      have hFinds := onSteps_returns (show s.steps = [] ++ s.steps from rfl) hFirst
        (tracks_initial hLatch hNodup hAll hSublist)
        (fun k _ => immune_nil c k.1.index) (frames_opened hStart hTop) hFound
      have hLater := ih (List.filter_sublist.trans hSublist) hWidth hMore
      refine Finds.imp (Finds.append (hFinds.imp (fun k t hShows => ?_) fun _ => id)
        (hLater.imp (fun k t => ?_) fun _ => id) fun k => mem_map_without)
        (fun _ _ => id) fun k => ?_
      · exact ⟨s, List.mem_cons_self, hShows⟩
      · rintro ⟨s', hs', hShows⟩
        exact ⟨s', List.mem_cons_of_mem _ hs', hShows⟩
      · exact (List.forall_mem_cons (p := fun s : Stimulus => Immune c s.steps k.index)).mpr

theorem analyze_returns {o : Options} {stimuli : List Stimulus} {report : Report}
    (hReturns : Returns (analyze c o stimuli) st report st') :
    ∃ checked ts, checkedLatches c o.reserved = .ok checked ∧ Exact c stimuli checked ts ∧
      report = .ofTraces o ts := by
  obtain ⟨_, st₁, hFirst, hReturns⟩ := returns_bind.mp hReturns
  obtain ⟨checked, st₂, hSecond, hReturns⟩ := returns_bind.mp hReturns
  obtain ⟨ts, st₃, hSearch, hLast⟩ := returns_bind.mp hReturns
  obtain ⟨rfl, _⟩ := returns_pure.mp hLast
  obtain ⟨hStimuli, _⟩ := returns_ofExcept.mp hFirst
  obtain ⟨hChecked, _⟩ := returns_ofExcept.mp hSecond
  have hLatch := fun k hk => ((mem_checkedLatches hChecked (k := k)).mp hk).2
  have hExact := onStimuli_returns hLatch (checkedLatches_nodup hChecked) rfl (List.Sublist.refl _)
    (fun s hs => (checkStimuli_eq_ok hStimuli s hs).1) (returns_adapt.mp hSearch)
  rw [List.map_fst_zip (VarPool.initial.length_freshList _).ge] at hExact
  exact ⟨checked, ts, hChecked, hExact, rfl⟩

/-- The latches reported are the checked ones that can cause a silent error. -/
theorem mem_vulnerable_iff_exists_silentError {o : Options} {stimuli : List Stimulus}
    {report : Report} (hReturns : Returns (analyze c o stimuli) st report st') :
    (∀ x ∈ report.vulnerable, ∃ l ∈ c.latches, x = l.signal) ∧
    ∀ i l, c.latches[i]? = some l → (l.signal ∈ report.vulnerable ↔
      i < c.latches.length - o.reserved ∧
        ∃ s ∈ stimuli, ∃ time inputs t, SilentError c s ⟨i, time⟩ inputs t) := by
  obtain ⟨checked, ts, hChecked, hExact, rfl⟩ := analyze_returns hReturns
  constructor
  · intro x hx
    obtain ⟨t, ht, rfl⟩ := mem_vulnerable.mp hx
    obtain ⟨k, hk, hLatch, _⟩ := hExact.shows t ht
    obtain ⟨_, l, hl, hSignal⟩ := (mem_checkedLatches hChecked).mp hk
    exact ⟨l, List.mem_of_getElem? hl, hLatch.trans hSignal⟩
  intro i l hl
  constructor
  · intro hMem
    obtain ⟨t, ht, hSignal⟩ := mem_vulnerable.mp hMem
    obtain ⟨k, hk, hLatch, s, hs, hShows⟩ := hExact.shows t ht
    obtain ⟨hBound, l', hl', hSignal'⟩ := (mem_checkedLatches hChecked).mp hk
    obtain rfl : k.index = i :=
      c.eq_of_signal_eq hl' hl (hSignal'.symm.trans (hLatch.symm.trans hSignal))
    obtain ⟨inputs, hError⟩ := hShows.exists_silentError
    exact ⟨hBound, s, hs, t.flip, inputs, t.error, hError⟩
  · rintro ⟨hBound, s, hs, time, inputs, t, hError⟩
    by_contra hNot
    have hk : (⟨i, l.signal⟩ : Component) ∈ checked :=
      (mem_checkedLatches hChecked).mpr ⟨hBound, l, hl, rfl⟩
    have hImmune := hExact.others _ hk fun t ht hEq => hNot (mem_vulnerable.mpr ⟨t, ht, hEq⟩)
    exact (hImmune s hs).not_silentError time inputs t hError

theorem gatedLatch_vulnerable :
    ∃ st', Returns (analyze gatedLatch {} [lateInput]) (SearchSession.ofOptions {})
        ⟨[⟨4⟩], [⟨⟨4⟩, 1, 1, [[false], [true]]⟩]⟩ st' ∧
      ∃ s ∈ [lateInput], ∃ time inputs t, SilentError gatedLatch s ⟨0, time⟩ inputs t := by
  have hReturns := returns_of_toOption (m := analyze gatedLatch {} [lateInput])
    (s := SearchSession.ofOptions {}) (a := ⟨[⟨4⟩], [⟨⟨4⟩, 1, 1, [[false], [true]]⟩]⟩)
    (by decide +kernel)
  have hIff := (mem_vulnerable_iff_exists_silentError hReturns).2 0 ⟨⟨4⟩, ⟨4⟩, none⟩ rfl
  exact ⟨_, hReturns, (hIff.mp (List.mem_singleton.mpr rfl)).2⟩

end Search

end SoftError.Vulnerability.Incremental

import SoftError.Proofs.Protection.ManySteps
import SoftError.Proofs.Protection.OneStep
import SoftError.Proofs.Vulnerability.Errors
import SoftError.Protection.Basic

/-!
# Exactness of the analysis of protection

The analysis reports the checked latches whose flip cannot go unnoticed. Where no request is
refused it comes to a result, and the search over one step finds the same as the one over
several. All of this is for encodings that stay within the range of variables, and then nothing
that the procedure is told goes beyond it.
-/

namespace SoftError.Protection

open Deciding ExactProcedure

variable {c : Circuit} {o : Options}

/-- The checked latches whose flip cannot go unnoticed within `k` steps. -/
structure IsProtected (c : Circuit) (reserved k : Nat) (found : List Signal) : Prop where
  ascending : found.Pairwise fun a b => a.code < b.code
  mem_iff : ∀ x, x ∈ found ↔ ∃ i l, i < c.latches.length - reserved ∧ c.latches[i]? = some l ∧
    l.signal = x ∧ ¬ Exposed c reserved k i

theorem IsProtected.eq {reserved k : Nat} {found found' : List Signal}
    (h : IsProtected c reserved k found) (h' : IsProtected c reserved k found') :
    found = found' := by
  refine Ascending.eq_of_mem_iff (fun _ _ => Nat.lt_asymm) h.ascending h'.ascending fun x => ?_
  rw [h.mem_iff, h'.mem_iff]

namespace Mode

/-- How many steps are considered. -/
def count : Mode → Nat
  | oneStep => 1
  | steps k => max 1 k

/-- Whether the steps can be stored. -/
def fits : Mode → Bool
  | oneStep => true
  | steps k => Storage.fits k 24

end Mode

section Range

variable (c o)

/-- What is encoded: the encoder at the end of each run, and the clause that there is an error. -/
def encodings (mode : Mode) : List (Clause × Encoder) :=
  match checkedLatches c o.reserved with
  | .error _ => []
  | .ok checked =>
    let compared := c.latches.length - o.reserved
    match mode with
    | .oneStep =>
      let (selectors, e) := Encoder.caching.freshList checked.length
      [OneStep.runs c (checked.zip selectors) compared (e.atMostOne selectors)]
    | .steps k =>
      let (g, e) := ManySteps.golden c (max 1 k) .caching
      ([], e) :: checked.map fun x => ManySteps.faultyRun c g compared x e.take.2

/-- The variables of the encodings are in range. A faulty run has one of its own for each step. -/
def InRange (mode : Mode) : Prop :=
  mode.count ≤ Lit.maxVar ∧ ∀ r ∈ encodings c o mode, r.2.InRange

instance (mode : Mode) : Decidable (InRange c o mode) := inferInstanceAs (Decidable (_ ∧ _))

variable {c o}

theorem below_encodings (mode : Mode) :
    ∀ r ∈ encodings c o mode, Cnf.Below r.2.nextVar (r.1 :: r.2.take.1) := by
  rw [encodings]
  cases hChecked : checkedLatches c o.reserved with
  | error _ => exact List.forall_mem_nil _
  | ok checked =>
  have hLatch := fun k hk => ((mem_checkedLatches hChecked (k := k)).mp hk).2
  cases mode with
  | oneStep =>
    exact List.forall_mem_singleton.mpr
      (OneStep.below_search hLatch (checkedLatches_nodup hChecked) rfl _)
  | steps k =>
    obtain ⟨n, hn⟩ : ∃ n, max 1 k = n + 1 := ⟨max 1 k - 1, by omega⟩
    dsimp only
    rw [hn]
    refine List.forall_mem_cons.mpr ⟨?_, List.forall_mem_map.mpr fun x _ => ?_⟩
    · exact List.forall_mem_cons.mpr
        ⟨List.forall_mem_nil _, (ManySteps.starts_caching rfl).valid.below⟩
    · exact ManySteps.below_faultyRun rfl o.reserved x

theorem InRange.words {mode : Mode} (h : InRange c o mode) :
    ∀ r ∈ encodings c o mode, Cnf.InRange (r.1 :: r.2.take.1) :=
  fun r hr => (below_encodings mode r hr).inRange (h.2 r hr)

/-- So many steps can be stored. -/
theorem InRange.fits {mode : Mode} (h : InRange c o mode) : mode.fits = true := by
  cases mode with
  | oneStep => rfl
  | steps k =>
    have hCount : max 1 k ≤ Lit.maxVar := h.1
    have hLess : k * 24 < 1 <<< 63 := by
      simp only [Lit.maxVar, Nat.reduceShiftLeft] at hCount ⊢
      omega
    exact decide_eq_true hLess

end Range

theorem isProtected_sorted {checked found : List Component} {k : Nat}
    (hChecked : checkedLatches c o.reserved = .ok checked)
    (hFound : ∀ x, x ∈ found ↔ x ∈ checked ∧ ¬ Exposed c o.reserved k x.index) :
    IsProtected c o.reserved k (Signal.sorted (found.map Component.signal)) := by
  refine ⟨Vulnerability.pairwise_sorted _, fun x => ?_⟩
  rw [Vulnerability.mem_sorted, List.mem_map]
  constructor
  · rintro ⟨y, hy, rfl⟩
    obtain ⟨hMem, hNot⟩ := (hFound y).mp hy
    obtain ⟨hIndex, l, hl, hSignal⟩ := (mem_checkedLatches hChecked).mp hMem
    exact ⟨y.index, l, hIndex, hl, hSignal.symm, hNot⟩
  · rintro ⟨i, l, hIndex, hl, rfl, hNot⟩
    exact ⟨⟨i, l.signal⟩, (hFound _).mpr
      ⟨(mem_checkedLatches hChecked).mpr ⟨hIndex, l, hl, rfl⟩, hNot⟩, rfl⟩

section Analyze

variable {σ : Type} [DecisionProcedure σ] {mode : Mode} {checked : List Component} {s s' : σ}
  {found : List Signal}

variable (c) in
/-- The protected ones of the latches, in any mode. -/
def search (mode : Mode) (checked : List Component) (compared : Nat) :
    Deciding σ SolverError (List Component) :=
  match mode with
  | .oneStep => OneStep.search c checked compared
  | .steps k => ManySteps.search c checked compared (max 1 k)

theorem analyze_of_fits (hChecked : checkedLatches c o.reserved = .ok checked)
    (hFits : mode.fits = true) : (analyze c o mode : Deciding σ AnalysisError (List Signal)) =
      (search c mode checked (c.latches.length - o.reserved)).adapt .solver >>=
        fun found => pure (Signal.sorted (found.map Component.signal)) := by
  rw [analyze, hChecked]
  cases mode with
  | oneStep => rfl
  | steps k =>
    have hStorage : Storage.fits k 24 = true := hFits
    simp only [hStorage, if_pos]
    rfl

theorem analyze_of_not_fits (hChecked : checkedLatches c o.reserved = .ok checked)
    (hFits : mode.fits = false) :
    (analyze c o mode : Deciding σ AnalysisError (List Signal)) = throw .tooLarge := by
  rw [analyze, hChecked]
  cases mode with
  | oneStep => cases hFits
  | steps k =>
    have hStorage : Storage.fits k 24 = false := hFits
    simp only [hStorage]
    rfl

variable [ExactProcedure σ]

theorem mem_search_iff (hChecked : checkedLatches c o.reserved = .ok checked)
    {found : List Component}
    (h : Returns (search c mode checked (c.latches.length - o.reserved)) s found s')
    (x : Component) : x ∈ found ↔ x ∈ checked ∧ ¬ Exposed c o.reserved mode.count x.index := by
  have hLatch := fun k hk => ((mem_checkedLatches hChecked (k := k)).mp hk).2
  cases mode with
  | oneStep => exact OneStep.mem_search hLatch (checkedLatches_nodup hChecked) h x
  | steps k =>
    obtain ⟨n, hn⟩ : ∃ n, max 1 k = n + 1 := ⟨max 1 k - 1, by omega⟩
    rw [search, hn] at h
    rw [Mode.count, hn]
    exact ManySteps.mem_search (fun x hx => (hLatch x hx).imp fun _ => And.left) h x

theorem analyze_returns (h : Returns (analyze c o mode) s found s') :
    IsProtected c o.reserved mode.count found := by
  obtain ⟨checked, hChecked, -⟩ := returns_ofExcept_bind.mp h
  cases hFits : mode.fits with
  | false =>
    rw [analyze_of_not_fits hChecked hFits] at h
    exact absurd h not_returns_throw
  | true =>
    rw [analyze_of_fits hChecked hFits] at h
    obtain ⟨components, t, hSearch, h⟩ := returns_bind.mp h
    obtain ⟨rfl, -⟩ := returns_pure.mp h
    exact isProtected_sorted hChecked (mem_search_iff hChecked (returns_adapt.mp hSearch))

theorem yields_analyze {Ready : Bool → σ → Prop} {nested : Bool}
    (hAnswers : Answering (fun _ => True) Ready) (hs : Ready nested s)
    (hReserved : o.reserved ≤ c.latches.length) (hFits : mode.fits = true) :
    Yields (analyze c o mode) s fun found _ => IsProtected c o.reserved mode.count found := by
  obtain ⟨checked, hChecked⟩ := exists_checkedLatches hReserved
  have hSearch : Yields (search c mode checked (c.latches.length - o.reserved)) s
      fun _ _ => True := by
    cases mode with
    | oneStep => exact OneStep.yields_search hAnswers hs _
    | steps k => exact ManySteps.yields_search hAnswers hs _ _ _
  have hYields : Yields (analyze c o mode) s fun _ _ => True := by
    rw [analyze_of_fits hChecked hFits]
    exact (hSearch.adapt AnalysisError.solver).bind fun _ _ _ => yields_pure trivial
  obtain ⟨found, s', hReturns, -⟩ := hYields
  exact ⟨found, s', hReturns, analyze_returns hReturns⟩

omit [ExactProcedure σ] in
theorem eq_solver_of_fails (hReserved : o.reserved ≤ c.latches.length) (hFits : mode.fits = true)
    {e : AnalysisError} (h : Fails (analyze c o mode) s e) : ∃ e', e = .solver e' := by
  obtain ⟨checked, hChecked⟩ := exists_checkedLatches hReserved
  rw [analyze_of_fits hChecked hFits, fails_bind] at h
  rcases h with h | ⟨_, _, _, h⟩
  · exact h.of_adapt
  · exact absurd h not_fails_pure

end Analyze

theorem report_of_alarm (h : c.alarm?.isSome = true) (mode : Mode) :
    report c o mode = o.decide (analyze c o mode) := by
  obtain ⟨alarm, hAlarm⟩ := Option.isSome_iff_exists.mp h
  rw [report, requireAlarm, hAlarm]
  rfl

theorem isProtected_of_report {mode : Mode} {found : List Signal}
    (h : report c o mode = .ok found) : IsProtected c o.reserved mode.count found := by
  obtain ⟨_, _, hDecide⟩ := exists_of_bind_eq_ok h
  exact decide_returns (fun hReturns => analyze_returns hReturns) hDecide

theorem exists_report_eq_ok (hAlarm : c.alarm?.isSome = true)
    (hReserved : o.reserved ≤ c.latches.length) (hBackend : o.backend = .search) (mode : Mode)
    (hFits : mode.fits = true) :
    ∃ found, report c o mode = .ok found ∧ IsProtected c o.reserved mode.count found := by
  obtain ⟨found, hDecide⟩ := exists_decide_eq_ok (m := analyze c o mode) hBackend
    fun hAnswers hs => (yields_analyze hAnswers hs hReserved hFits).imp fun _ _ _ => trivial
  have hReport := (report_of_alarm hAlarm mode).trans hDecide
  exact ⟨found, hReport, isProtected_of_report hReport⟩

/-- As long as the variables are in range, the analysis reports the checked latches whose flip
cannot go unnoticed, whichever exact procedure it uses, and no fewer steps than one are considered.
Only the procedure can fail, which the search does not, and all that it is told is in range. -/
theorem report_exact (hAlarm : c.alarm?.isSome = true)
    (hReserved : o.reserved ≤ c.latches.length) :
    (∀ mode, InRange c o mode →
      (∀ (σ : Type) [DecisionProcedure σ] [ExactProcedure σ] (s s' : σ) (found : List Signal),
        Returns (analyze c o mode) s found s' → IsProtected c o.reserved mode.count found) ∧
      ((∃ found, report c o mode = .ok found ∧ IsProtected c o.reserved mode.count found) ∨
        o.backend ≠ .search ∧ ∃ e, report c o mode = .error (.solver e)) ∧
      ∀ r ∈ encodings c o mode, Cnf.InRange (r.1 :: r.2.take.1)) ∧
    (o.backend = .search → InRange c o .oneStep → InRange c o (.steps 1) →
      report c o .oneStep = report c o (.steps 1)) ∧
    report c o (.steps 0) = report c o (.steps 1) := by
  refine ⟨fun mode hRange => ⟨fun σ _ _ s s' found hReturns => analyze_returns hReturns, ?_,
    hRange.words⟩, fun hBackend hOne hSteps => ?_, rfl⟩
  · by_cases hBackend : o.backend = .search
    · exact .inl (exists_report_eq_ok hAlarm hReserved hBackend mode hRange.fits)
    · cases hReport : report c o mode with
      | ok found => exact .inl ⟨found, rfl, isProtected_of_report hReport⟩
      | error e =>
        rw [report_of_alarm hAlarm] at hReport
        obtain ⟨e', rfl⟩ := decide_fails (eq_solver_of_fails hReserved hRange.fits) hReport
        exact .inr ⟨hBackend, e', rfl⟩
  · obtain ⟨found, hFirst, hFound⟩ :=
      exists_report_eq_ok hAlarm hReserved hBackend .oneStep hOne.fits
    obtain ⟨found', hSecond, hFound'⟩ :=
      exists_report_eq_ok hAlarm hReserved hBackend (.steps 1) hSteps.fits
    rw [hFirst, hSecond, hFound.eq hFound']

/-- The value of the first latch is lost, after the second one has taken it over as the alarm. -/
def delayedAlarm : Circuit where
  maxVar := 2
  inputs := []
  latches := [⟨⟨2⟩, ⟨0⟩, none⟩, ⟨⟨4⟩, ⟨2⟩, none⟩]
  outputs := [⟨4⟩]
  gates := []
  wellFormed := ⟨by decide, by decide, by decide, by decide, by decide, by decide, trivial⟩

/-- One step is too few to see that the flip of the first latch raises the alarm. -/
theorem delayedAlarm_exact : report delayedAlarm {} (.steps 1) = .ok [⟨4⟩] ∧
    report delayedAlarm {} (.steps 2) = .ok [⟨2⟩, ⟨4⟩] ∧
    Exposed delayedAlarm 0 1 0 ∧ ¬ Exposed delayedAlarm 0 2 0 := by
  have hOne : report delayedAlarm {} (.steps 1) = .ok [⟨4⟩] := eq_ok_of_toOption (by decide +kernel)
  have hTwo : report delayedAlarm {} (.steps 2) = .ok [⟨2⟩, ⟨4⟩] :=
    eq_ok_of_toOption (by decide +kernel)
  obtain ⟨hExact, -⟩ := report_exact (c := delayedAlarm) (o := {}) rfl (Nat.zero_le _)
  have hSteps : ∀ k, InRange delayedAlarm {} (.steps k) → ∃ found,
      report delayedAlarm {} (.steps k) = .ok found ∧
        IsProtected delayedAlarm 0 (max 1 k) found :=
    fun k hRange => ((hExact (.steps k) hRange).2.1).resolve_right fun h => h.1 rfl
  obtain ⟨found, hFound, hOneStep⟩ := hSteps 1 (by decide +kernel)
  obtain ⟨found', hFound', hTwoSteps⟩ := hSteps 2 (by decide +kernel)
  cases hOne.symm.trans hFound
  cases hTwo.symm.trans hFound'
  refine ⟨hOne, hTwo, ?_, ?_⟩
  · by_contra hNot
    have hMem := (hOneStep.mem_iff ⟨2⟩).mpr ⟨0, _, by decide, rfl, rfl, hNot⟩
    exact absurd hMem (by decide)
  · obtain ⟨i, l, -, hl, hSignal, hNot⟩ := (hTwoSteps.mem_iff ⟨2⟩).mp (by decide)
    have hIndex : i = 0 := delayedAlarm.eq_of_signal_eq hl rfl hSignal
    rwa [hIndex] at hNot

end SoftError.Protection

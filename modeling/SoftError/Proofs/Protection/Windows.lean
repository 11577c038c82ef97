import SoftError.Proofs.Protection.Soundness

/-!
# Longer windows

A flip that goes unnoticed for some steps does so for fewer. Either an output is already wrong
within the shorter window, or the states differ at its end, as equal states have equal futures.
So more steps never lose a protected latch, provided that all latches are compared.
-/

namespace SoftError.Protection

variable {c : Circuit} {o : Options} {reserved k n latch : Nat} {inputs : List (List Bool)}

/-- Runs that start the same after the flip show nothing. -/
theorem not_unnoticed_of_sameStart {f : Fault} {t : Nat} {golden faulty : Table Bool}
    (hTime : f.time < t) (hStart : Table.SameStart c golden faulty) :
    ¬ Unnoticed c reserved (f.replayFrom c t golden faulty inputs) := by
  rintro ⟨i, o, ho, _, hDiffers⟩
  have hSame := Fault.eq_of_mem_replayFrom hTime hStart (List.mem_of_getElem? ho)
  rcases hDiffers with hWrong | ⟨_, hStates⟩
  · exact of_decide_eq_false hWrong (Table.observed_congr hSame)
  · exact of_decide_eq_false hStates (congrArg (List.take _) (Table.nextState_congr hSame))

theorem Unnoticed.take {f : Fault} {t : Nat} {golden faulty : Table Bool} (hTime : f.time ≤ t)
    (hRest : Table.SameRest c golden faulty)
    (h : Unnoticed c 0 (f.replayFrom c t golden faulty inputs)) (k : Nat) :
    Unnoticed c 0 ((f.replayFrom c t golden faulty inputs).take (k + 1)) := by
  induction inputs generalizing t golden faulty k with
  | nil => exact absurd h not_unnoticed_nil
  | cons xs inputs ih =>
    rw [Fault.replayFrom_cons, unnoticed_cons] at h
    rw [Fault.replayFrom_cons, List.take_succ_cons, unnoticed_cons]
    obtain ⟨hLow, (hWrong | ⟨hNil, hStates⟩) | hLater⟩ := h
    · exact ⟨hLow, .inl (.inl hWrong)⟩
    · exact ⟨hLow, .inl (.inr ⟨by rw [hNil, List.take_nil], hStates⟩)⟩
    · have hStep := (hRest.strike f t).step xs
      cases k with
      | zero =>
        -- the window ends here: had the states converged, nothing could go wrong later
        refine ⟨hLow, .inl (.inr ⟨rfl, ?_⟩)⟩
        by_contra hConverges
        rw [Bool.not_eq_false] at hConverges
        have hStart := hStep.sameStart (eq_nextState_of_converges hConverges)
        exact not_unnoticed_of_sameStart (Nat.lt_succ_of_le hTime) hStart hLater
      | succ k => exact ⟨hLow, .inr (ih (Nat.le_succ_of_le hTime) hStep.advance hLater k)⟩

/-- A flip that can go unnoticed within some steps can do so within fewer. -/
theorem Exposed.of_le (hk : 1 ≤ k) (hLe : k ≤ n) (h : Exposed c 0 n latch) :
    Exposed c 0 k latch := by
  obtain ⟨state, inputs, hState, hLength, hWidth, hQuiet, hUnnoticed⟩ := h
  obtain ⟨j, rfl⟩ : ∃ j, k = j + 1 := ⟨k - 1, by omega⟩
  have hTake : flipReplay c latch state (inputs.take (j + 1)) =
      (flipReplay c latch state inputs).take (j + 1) := Fault.replayFrom_take c _ 0 _ _ inputs _
  refine ⟨state, inputs.take (j + 1), hState, ?_, fun xs hxs => ?_, fun o ho => ?_, ?_⟩
  · rw [List.length_take, hLength]
    omega
  · exact hWidth xs (List.mem_of_mem_take hxs)
  · rw [hTake] at ho
    exact hQuiet o (List.mem_of_mem_take ho)
  · rw [hTake]
    exact hUnnoticed.take (Nat.zero_le 0) (fun _ _ _ => rfl) j

theorem IsProtected.subset {found found' : List Signal} (hk : 1 ≤ k) (hLe : k ≤ n)
    (h : IsProtected c 0 k found) (h' : IsProtected c 0 n found') : found ⊆ found' := by
  intro x hx
  obtain ⟨i, l, hi, hl, hSignal, hNot⟩ := (h.mem_iff x).mp hx
  exact (h'.mem_iff x).mpr ⟨i, l, hi, hl, hSignal, fun hExposed => hNot (hExposed.of_le hk hLe)⟩

/-- Latches that are protected within `k` steps are protected within more. Both analyses come to
a result if the search is used and the steps can be stored. -/
theorem steps_subset_of_le (hAlarm : c.alarm?.isSome = true) (hReserved : o.reserved = 0)
    (hk : 1 ≤ k) (hLe : k ≤ n) :
    (∀ found found', Searched c o (.steps k) found → Searched c o (.steps n) found' →
      found ⊆ found') ∧
    (o.backend = .search → Storage.fits n 24 = true →
      ∃ found found', report c o (.steps k) = .ok found ∧ report c o (.steps n) = .ok found' ∧
        found ⊆ found') := by
  have hSubset : ∀ found found', Searched c o (.steps k) found →
      Searched c o (.steps n) found' → found ⊆ found' := by
    intro found found' h h'
    have hFound := h.isProtected
    have hFound' := h'.isProtected
    rw [hReserved, Mode.count, Nat.max_eq_right hk] at hFound
    rw [hReserved, Mode.count, Nat.max_eq_right (hk.trans hLe)] at hFound'
    exact hFound.subset hk hLe hFound'
  refine ⟨hSubset, fun hBackend hFits => ?_⟩
  have hBound : o.reserved ≤ c.latches.length := hReserved ▸ Nat.zero_le _
  have hFewer : Storage.fits k 24 = true := by
    rw [Storage.fits, decide_eq_true_iff] at hFits ⊢
    omega
  obtain ⟨found, hFound, _⟩ := exists_report_eq_ok hAlarm hBound hBackend (.steps k) hFewer
  obtain ⟨found', hFound', _⟩ := exists_report_eq_ok hAlarm hBound hBackend (.steps n) hFits
  exact ⟨found, found', hFound, hFound', hSubset _ _ (.report hFound) (.report hFound')⟩

/-- The alarm comes one step after the flip of the second latch. -/
theorem partlyProtected_subset : ∃ found found',
    report partlyProtected {} (.steps 1) = .ok found ∧
      report partlyProtected {} (.steps 2) = .ok found' ∧
      found = [⟨6⟩] ∧ found' = [⟨4⟩, ⟨6⟩] ∧ found ⊆ found' := by
  have hFound : report partlyProtected {} (.steps 1) = .ok [⟨6⟩] :=
    eq_ok_of_toOption (by decide +kernel)
  have hFound' : report partlyProtected {} (.steps 2) = .ok [⟨4⟩, ⟨6⟩] :=
    eq_ok_of_toOption (by decide +kernel)
  have hSubset := (steps_subset_of_le (c := partlyProtected) (o := {}) rfl rfl (Nat.le_refl 1)
    (Nat.le_succ 1)).1
  exact ⟨_, _, hFound, hFound', rfl, rfl, hSubset _ _ (.report hFound) (.report hFound')⟩

end SoftError.Protection

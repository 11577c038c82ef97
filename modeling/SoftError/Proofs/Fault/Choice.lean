import SoftError.Fault.Component
import SoftError.Fault.Replay
import SoftError.Proofs.Circuit.Settled
import SoftError.Proofs.Encoding.OneHot

/-!
# Choosing a fault

Latches and steps are chosen by literals of which at most one holds. An assignment picks a
key if exactly the literal with that key holds; a key without a literal stands for no choice.
-/

namespace SoftError

theorem find?_eq_some_of_unique {α : Type} {p : α → Bool} {xs : List α} {x : α} (hx : x ∈ xs)
    (hp : p x = true) (hUnique : ∀ y ∈ xs, p y = true → y = x) : xs.find? p = some x := by
  obtain ⟨y, hFind⟩ := Option.isSome_iff_exists.mp (List.find?_isSome.mpr ⟨x, hx, hp⟩)
  rw [hFind, hUnique y (List.mem_of_find?_eq_some hFind) (List.find?_some hFind)]

/-- The literal with the key `j` holds, and no other. -/
def Picks (ρ : Assignment) (xs : List (Nat × Lit)) (j : Nat) : Prop :=
  ∀ x ∈ xs, x.2.holds ρ = decide (x.1 = j)

section Picks

variable {ρ ρ' : Assignment} {xs ys : List (Nat × Lit)} {j : Nat}

theorem picks_append : Picks ρ (xs ++ ys) j ↔ Picks ρ xs j ∧ Picks ρ ys j := by
  simp only [Picks, List.forall_mem_append]

theorem picks_singleton {x : Nat × Lit} : Picks ρ [x] j ↔ x.2.holds ρ = decide (x.1 = j) := by
  simp [Picks]

theorem Picks.congr {n : Nat} (h : Picks ρ xs j) (hAgree : AgreeBelow n ρ ρ')
    (hxs : ∀ x ∈ xs, x.2.var < n) : Picks ρ' xs j := by
  intro x hx
  rw [← hAgree.holds (hxs x hx)]
  exact h x hx

theorem Picks.subset (h : Picks ρ xs j) (hys : ys ⊆ xs) : Picks ρ ys j :=
  fun y hy => h y (hys hy)

theorem Picks.atMostOne (h : Picks ρ xs j) (hNodup : (xs.map Prod.fst).Nodup) :
    AtMostOne ρ (xs.map Prod.snd) := by
  rw [AtMostOne, List.pairwise_map]
  refine (List.pairwise_map.mp hNodup).imp_of_mem fun {x y} hx hy hNe => ?_
  rw [h x hx, h y hy, decide_eq_true_eq, decide_eq_true_eq]
  rintro ⟨hxj, hyj⟩
  exact hNe (hxj.trans hyj.symm)

theorem exists_picks (hOne : AtMostOne ρ (xs.map Prod.snd)) (hNodup : (xs.map Prod.fst).Nodup)
    {d : Nat} (hd : d ∉ xs.map Prod.fst) :
    ∃ j, Picks ρ xs j ∧ (j ∈ xs.map Prod.fst ∨ j = d) := by
  induction xs with
  | nil => exact ⟨d, List.forall_mem_nil _, .inr rfl⟩
  | cons x xs ih =>
    rw [List.map_cons, AtMostOne, List.pairwise_cons] at hOne
    rw [List.map_cons, List.nodup_cons] at hNodup
    rw [List.map_cons, List.mem_cons, not_or] at hd
    cases hx : x.2.holds ρ with
    | true =>
      refine ⟨x.1, List.forall_mem_cons.mpr ⟨by simp [hx], fun y hy => ?_⟩, .inl (by simp)⟩
      have hLow : y.2.holds ρ = false := by
        have := hOne.1 y.2 (List.mem_map_of_mem hy)
        simpa [hx] using this
      have hNe : y.1 ≠ x.1 := by
        rintro hEq
        exact hNodup.1 (hEq ▸ List.mem_map_of_mem hy)
      rw [hLow, decide_eq_false hNe]
    | false =>
      obtain ⟨j, hj, hMem⟩ := ih hOne.2 hNodup.2 hd.2
      have hNe : x.1 ≠ j := by
        rintro rfl
        rcases hMem with hMem | hMem
        · exact hNodup.1 hMem
        · exact hd.1 hMem.symm
      refine ⟨j, List.forall_mem_cons.mpr ⟨?_, hj⟩, hMem.imp_left (List.mem_cons_of_mem _)⟩
      rw [hx, decide_eq_false hNe]

theorem find?_of_picks (hNodup : (xs.map Prod.fst).Nodup) {p : Lit → Bool}
    (hp : ∀ x ∈ xs, p x.2 = x.2.holds ρ) (h : Picks ρ xs j) {l : Lit} (hl : (j, l) ∈ xs) :
    xs.find? (fun x => p x.2) = some (j, l) := by
  refine find?_eq_some_of_unique hl ?_ fun x hx hTrue => ?_
  · rw [hp _ hl, h _ hl, decide_eq_true rfl]
  · rw [hp x hx, h x hx, decide_eq_true_eq] at hTrue
    exact List.inj_on_of_nodup_map hNodup hx hl hTrue

end Picks

/-- The literals with their positions. -/
def numbered (ls : List Lit) : List (Nat × Lit) := ls.mapIdx Prod.mk

section Numbered

variable {ρ : Assignment} {ls : List Lit} {j : Nat}

theorem numbered_snoc (ls : List Lit) (l : Lit) :
    numbered (ls ++ [l]) = numbered ls ++ [(ls.length, l)] :=
  List.mapIdx_concat

theorem map_snd_numbered (ls : List Lit) : (numbered ls).map Prod.snd = ls := by
  apply List.ext_getElem <;> simp [numbered]

theorem map_fst_numbered (ls : List Lit) : (numbered ls).map Prod.fst = List.range ls.length := by
  apply List.ext_getElem <;> simp [numbered]

theorem var_lt_of_mem_numbered {n : Nat} (h : ∀ l ∈ ls, l.var < n) :
    ∀ x ∈ numbered ls, x.2.var < n := by
  intro x hx
  exact h _ (map_snd_numbered ls ▸ List.mem_map_of_mem hx)

theorem picks_numbered_iff :
    Picks ρ (numbered ls) j ↔ ∀ i l, ls[i]? = some l → l.holds ρ = decide (i = j) := by
  constructor
  · intro h i l hl
    obtain ⟨hi, rfl⟩ := List.getElem?_eq_some_iff.mp hl
    exact h (i, ls[i]) (List.mem_mapIdx.mpr ⟨i, hi, rfl⟩)
  · intro h x hx
    obtain ⟨i, hi, rfl⟩ := List.mem_mapIdx.mp hx
    exact h i ls[i] (List.getElem?_eq_getElem hi)

theorem exists_picks_numbered (hOne : AtMostOne ρ ls) :
    ∃ j ≤ ls.length, Picks ρ (numbered ls) j := by
  have hNodup : ((numbered ls).map Prod.fst).Nodup := by
    rw [map_fst_numbered]
    exact List.nodup_range
  rw [← map_snd_numbered ls] at hOne
  obtain ⟨j, hj, hMem⟩ := exists_picks hOne hNodup (d := ls.length) (by simp [map_fst_numbered])
  refine ⟨j, ?_, hj⟩
  rw [map_fst_numbered, List.mem_range] at hMem
  omega

theorem findIdx?_of_picks {p : Lit → Bool} (hp : ∀ l ∈ ls, p l = l.holds ρ)
    (h : Picks ρ (numbered ls) j) (hj : j < ls.length) : ls.findIdx? p = some j := by
  rw [picks_numbered_iff] at h
  rw [List.findIdx?_eq_some_iff_getElem]
  refine ⟨hj, ?_, fun i hi => ?_⟩
  · rw [hp _ (List.getElem_mem hj), h j _ (List.getElem?_eq_getElem hj), decide_eq_true rfl]
  · rw [hp _ (List.getElem_mem _), h i _ (List.getElem?_eq_getElem (hi.trans hj)),
      decide_eq_false (Nat.ne_of_lt hi), Bool.not_eq_true]

end Numbered

/-- Latches of the circuit, each listed once, with what selects them. -/
structure Candidates {β : Type} (c : Circuit) (all : List (Component × β)) : Prop where
  latch : ∀ k ∈ all, ∃ l, c.latches[k.1.index]? = some l ∧ k.1.signal = l.signal
  distinct : (all.map fun k => k.1.index).Nodup

/-- A fault of a latch among the candidates. A fault without a latch stands for none. -/
def Possible {β : Type} (c : Circuit) (ks : List (Component × β)) (f : Fault) : Prop :=
  f.latch ∈ ks.map (fun k => k.1.index) ∨ c.latches.length ≤ f.latch

theorem Possible.mono {β : Type} {c : Circuit} {ks all : List (Component × β)} {f : Fault}
    (h : Possible c ks f) (hks : ks ⊆ all) : Possible c all f :=
  h.imp_left fun hMem => List.map_subset _ hks hMem

def selection (all : List (Component × Lit)) : List (Nat × Lit) :=
  all.map fun k => (k.1.index, k.2)

theorem Picks.holds {ρ : Assignment} {all : List (Component × Lit)} {j : Nat}
    (h : Picks ρ (selection all) j) {k : Component × Lit} (hk : k ∈ all) :
    k.2.holds ρ = decide (k.1.index = j) :=
  h (k.1.index, k.2) (List.mem_map_of_mem (f := fun k => (k.1.index, k.2)) hk)

theorem var_lt_of_mem_selection {all : List (Component × Lit)} {n : Nat}
    (h : ∀ k ∈ all, k.2.var < n) : ∀ x ∈ selection all, x.2.var < n := by
  intro x hx
  obtain ⟨k, hk, rfl⟩ := List.mem_map.mp hx
  exact h k hk

namespace Candidates

section Latches

variable {β : Type} {c : Circuit} {all ks : List (Component × β)}

theorem sublist (h : Candidates c all) (hks : ks.Sublist all) : Candidates c ks :=
  ⟨fun k hk => h.latch k (hks.subset hk), h.distinct.sublist (hks.map _)⟩

theorem index_lt (h : Candidates c all) {k : Component × β} (hk : k ∈ all) :
    k.1.index < c.latches.length := by
  obtain ⟨l, hl, _⟩ := h.latch k hk
  exact (List.getElem?_eq_some_iff.mp hl).1

theorem eq_of_index (h : Candidates c all) {k k' : Component × β} (hk : k ∈ all)
    (hk' : k' ∈ all) (hIndex : k.1.index = k'.1.index) : k = k' :=
  List.inj_on_of_nodup_map h.distinct hk hk' hIndex

theorem index_eq_iff (h : Candidates c all) {k k' : Component × β} (hk : k ∈ all)
    (hk' : k' ∈ all) : k.1.index = k'.1.index ↔ k.1.signal = k'.1.signal := by
  obtain ⟨l, hl, hSignal⟩ := h.latch k hk
  obtain ⟨l', hl', hSignal'⟩ := h.latch k' hk'
  constructor
  · intro hIndex
    rw [hIndex, hl'] at hl
    rw [hSignal, hSignal', Option.some.inj hl]
  · intro hEq
    exact c.eq_of_signal_eq hl hl' (hSignal ▸ hSignal' ▸ hEq)

theorem index_ne (h : Candidates c all) (hks : ks.Sublist all) {f : Fault}
    (hf : Possible c ks f) {k : Component × β} (hk : k ∈ all) (hNot : k ∉ ks) :
    k.1.index ≠ f.latch := by
  rintro hEq
  rcases hf with hMem | hNone
  · obtain ⟨k', hk', hIndex⟩ := List.mem_map.mp hMem
    exact hNot (h.eq_of_index (hks.subset hk') hk (hIndex.trans hEq.symm) ▸ hk')
  · exact Nat.not_lt_of_le hNone (hEq ▸ h.index_lt hk)

end Latches

variable {c : Circuit} {all : List (Component × Lit)} {ρ : Assignment} {j : Nat}

theorem exists_picks (h : Candidates c all) (hOne : AtMostOne ρ (all.map Prod.snd)) :
    ∃ j, Picks ρ (selection all) j ∧
      (j ∈ all.map (fun k => k.1.index) ∨ j = c.latches.length) := by
  have hFst : (selection all).map Prod.fst = all.map fun k => k.1.index := List.map_map
  have hSnd : (selection all).map Prod.snd = all.map Prod.snd := List.map_map
  have hLength : c.latches.length ∉ all.map fun k => k.1.index := by
    intro hMem
    obtain ⟨k, hk, hEq⟩ := List.mem_map.mp hMem
    exact Nat.ne_of_lt (h.index_lt hk) hEq
  rw [← hSnd] at hOne
  rw [← hFst] at hLength ⊢
  exact SoftError.exists_picks hOne (hFst ▸ h.distinct) hLength

theorem atMostOne_of_picks (h : Candidates c all) {j : Nat} (hPicks : Picks ρ (selection all) j) :
    AtMostOne ρ (all.map Prod.snd) := by
  have hOne := hPicks.atMostOne (by
    rw [selection, List.map_map]
    exact h.distinct)
  rwa [selection, List.map_map] at hOne

theorem find?_of_picks (h : Candidates c all) {p : Lit → Bool}
    (hp : ∀ k ∈ all, p k.2 = k.2.holds ρ) {k : Component × Lit} (hk : k ∈ all)
    (hPicks : Picks ρ (selection all) k.1.index) : all.find? (fun k => p k.2) = some k := by
  refine find?_eq_some_of_unique hk ?_ fun k' hk' hTrue => ?_
  · rw [hp k hk, hPicks.holds hk, decide_eq_true rfl]
  · rw [hp k' hk', hPicks.holds hk', decide_eq_true_eq] at hTrue
    exact h.eq_of_index hk' hk hTrue

end Candidates

theorem VarPool.holds_of_mem_freshList {p : VarPool} {n : Nat} {l : Lit}
    (h : l ∈ (p.freshList n).1) (ρ : Assignment) : l.holds ρ = ρ l.var := by
  have hMap := p.map_holds_freshList n ρ
  rw [← p.map_var_freshList, List.map_map] at hMap
  exact List.map_inj_left.mp hMap l h

/-- Each of the latches with a fresh selector can be selected alone. -/
theorem exists_selecting {checked : List Component} {p : VarPool}
    (hNodup : (checked.map Component.index).Nodup) {k : Component × Lit}
    (hk : k ∈ checked.zip (p.freshList checked.length).1) :
    ∃ ρ ∈ pinned, Picks ρ (selection (checked.zip (p.freshList checked.length).1)) k.1.index := by
  have hLength := p.length_freshList checked.length
  have hVar : ∀ i (hi : i < (p.freshList checked.length).1.length),
      ((p.freshList checked.length).1[i]).var = p.next + i := by
    intro i hi
    have hGet := congrArg (fun vs => vs[i]?) (p.map_var_freshList checked.length)
    simp only [List.getElem?_map, List.getElem?_eq_getElem hi, Option.map_some] at hGet
    rw [List.getElem?_range' (hLength ▸ hi)] at hGet
    simpa using hGet
  obtain ⟨i, hi, rfl⟩ := List.getElem_of_mem hk
  rw [List.length_zip, hLength, Nat.min_self] at hi
  have hTwo := p.two_le
  refine ⟨fun v => decide (v = p.next + i), decide_eq_false (by omega), fun x hx => ?_⟩
  obtain ⟨k', hk', rfl⟩ := List.mem_map.mp hx
  obtain ⟨i', hi', rfl⟩ := List.getElem_of_mem hk'
  rw [List.length_zip, hLength, Nat.min_self] at hi'
  rw [List.getElem_zip, List.getElem_zip,
    VarPool.holds_of_mem_freshList (List.getElem_mem (hLength.symm ▸ hi')), hVar,
    decide_eq_decide]
  have hInj := List.getElem?_inj (j := i) (by simpa using hi') hNodup
  rw [List.getElem?_map, List.getElem?_map, List.getElem?_eq_getElem hi,
    List.getElem?_eq_getElem hi', Option.map_some, Option.map_some, Option.some_inj] at hInj
  rw [hInj]
  omega

theorem candidates_zip {c : Circuit} {checked : List Component} {ls : List Lit}
    (hLatch : ∀ k ∈ checked, ∃ l, c.latches[k.index]? = some l ∧ k.signal = l.signal)
    (hNodup : (checked.map Component.index).Nodup) (hLength : checked.length = ls.length) :
    Candidates c (checked.zip ls) := by
  refine ⟨fun k hk => hLatch _ (List.of_mem_zip hk).1, ?_⟩
  have hMap : (checked.zip ls).map (fun k => k.1.index) = checked.map Component.index := by
    have hFst : (checked.zip ls).map Prod.fst = checked :=
      List.map_fst_zip (Nat.le_of_eq hLength)
    exact List.map_map.symm.trans (congrArg (List.map Component.index) hFst)
  rwa [hMap]

section Checked

variable {c : Circuit} {reserved : Nat} {checked : List Component}

theorem mem_checkedLatches (h : checkedLatches c reserved = .ok checked) {k : Component} :
    k ∈ checked ↔ k.index < c.latches.length - reserved ∧
      ∃ l, c.latches[k.index]? = some l ∧ k.signal = l.signal := by
  rw [checkedLatches] at h
  split at h
  · cases h
  cases h
  rw [List.mem_mapIdx]
  constructor
  · rintro ⟨i, hi, rfl⟩
    obtain ⟨hBound, hLatch⟩ := Nat.lt_min.mp (List.length_take ▸ hi)
    exact ⟨hBound, c.latches[i], List.getElem?_eq_getElem hLatch, by simp⟩
  · rintro ⟨hi, l, hl, hSignal⟩
    obtain ⟨hi', rfl⟩ := List.getElem?_eq_some_iff.mp hl
    refine ⟨k.index, by rw [List.length_take]; omega, ?_⟩
    rw [List.getElem_take, ← hSignal]

theorem checkedLatches_nodup (h : checkedLatches c reserved = .ok checked) :
    (checked.map Component.index).Nodup := by
  rw [checkedLatches] at h
  split at h
  · cases h
  cases h
  have hMap : ((c.latches.take (c.latches.length - reserved)).mapIdx
      fun i l => (⟨i, l.signal⟩ : Component)).map Component.index =
      List.range (c.latches.take (c.latches.length - reserved)).length := by
    apply List.ext_getElem <;> simp
  rw [hMap]
  exact List.nodup_range

theorem checkedLatches_signals_nodup (h : checkedLatches c reserved = .ok checked) :
    (checked.map Component.signal).Nodup := by
  refine (List.nodup_map_iff_inj_on (checkedLatches_nodup h).of_map).mpr fun k hk k' hk' hEq => ?_
  obtain ⟨_, l, hl, hSignal⟩ := (mem_checkedLatches h).mp hk
  obtain ⟨_, l', hl', hSignal'⟩ := (mem_checkedLatches h).mp hk'
  have hIndex := c.eq_of_signal_eq hl hl' (hSignal.symm.trans (hEq.trans hSignal'))
  cases k
  cases k'
  exact congr (congrArg Component.mk hIndex) hEq

theorem exists_checkedLatches (h : reserved ≤ c.latches.length) :
    ∃ checked, checkedLatches c reserved = .ok checked :=
  ⟨_, if_neg (Nat.not_lt.mpr h)⟩

theorem checkStimuliFrom_eq_ok {allowFree : Bool} {index : Nat} {stimuli : List Stimulus}
    (h : checkStimuliFrom c allowFree index stimuli = .ok ()) :
    ∀ s ∈ stimuli, s.width = c.inputs.length ∧ (allowFree = false → s.hasFree = false) := by
  induction stimuli generalizing index with
  | nil => exact List.forall_mem_nil _
  | cons s stimuli ih =>
    rw [checkStimuliFrom] at h
    split at h
    · cases h
    · rename_i hWidth
      split at h
      · cases h
      · rename_i hFree
        refine List.forall_mem_cons.mpr ⟨⟨not_not.mp hWidth, fun hAllow => ?_⟩, ih h⟩
        simpa [hAllow] using hFree

theorem checkStimuli_eq_ok {allowFree : Bool} {stimuli : List Stimulus}
    (h : checkStimuli c allowFree stimuli = .ok ()) :
    ∀ s ∈ stimuli, s.width = c.inputs.length ∧ (allowFree = false → s.hasFree = false) :=
  checkStimuliFrom_eq_ok h

theorem checkStimuli_of_fits {allowFree : Bool} {stimuli : List Stimulus}
    (h : ∀ s ∈ stimuli, s.width = c.inputs.length ∧ (allowFree = false → s.hasFree = false)) :
    checkStimuli c allowFree stimuli = .ok () := by
  rw [checkStimuli]
  generalize 0 = index
  induction stimuli generalizing index with
  | nil => rfl
  | cons s stimuli ih =>
    obtain ⟨⟨hWidth, hFree⟩, hRest⟩ := List.forall_mem_cons.mp h
    have hDefinite : ¬ (!allowFree && s.hasFree) = true := by
      cases allowFree with
      | true => exact Bool.false_ne_true
      | false => simp [hFree rfl]
    rw [checkStimuliFrom, if_neg (not_not.mpr hWidth), if_neg hDefinite]
    exact ih hRest (index + 1)

theorem checkStimuli_of_width {stimuli : List Stimulus}
    (h : ∀ s ∈ stimuli, s.width = c.inputs.length) : checkStimuli c true stimuli = .ok () :=
  checkStimuli_of_fits fun s hs => ⟨h s hs, nofun⟩

theorem checkStimuliFrom_ne_formula {allowFree : Bool} {index : Nat} {stimuli : List Stimulus}
    (e : FormulaError) : checkStimuliFrom c allowFree index stimuli ≠ .error (.formula e) := by
  induction stimuli generalizing index with
  | nil => nofun
  | cons s stimuli ih =>
    rw [checkStimuliFrom]
    split
    · nofun
    · split
      · nofun
      · exact ih

end Checked

end SoftError

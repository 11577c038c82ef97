import SoftError.Proofs.Decision.Session
import SoftError.Proofs.Fault.Choice
import SoftError.Proofs.Unrolling.Constant
import SoftError.Proofs.Vulnerability.Errors

/-!
# Genuine traces

A trace is genuine if replaying its fault on its inputs shows a wrong output in the last step
for the first time, and no alarm. A report is documented if it has one genuine trace of each
vulnerable latch, or none at all if traces are not asked for.
-/

namespace SoftError.Vulnerability

/-- A wrong output in step `n`, and no faulty alarm up to there. -/
structure Silent (c : Circuit) (os : List Observation) (n : Nat) : Prop where
  quiet : ∀ i ≤ n, ∀ o, os[i]? = some o → o.faulty.alarm c = false
  wrong : ∃ o, os[n]? = some o ∧ o.agrees c = false

/-- The first wrong output. -/
structure FirstSilent (c : Circuit) (os : List Observation) (n : Nat) : Prop
    extends Silent c os n where
  first : ∀ i < n, ∀ o, os[i]? = some o → o.agrees c = true

/-- No flip of the latch leads to a silent error on the inputs. -/
def Spared (c : Circuit) (inputs : List (List Bool)) (latch : Nat) : Prop :=
  ∀ time n, ¬ Silent c ((⟨latch, time⟩ : Fault).replay c inputs) n

structure Genuine (c : Circuit) (s : Stimulus) (latch : Nat) (t : ErrorTrace) : Prop where
  flip_le : t.flip ≤ t.error
  length : t.inputs.length = t.error + 1
  admits : AdmitsSteps (s.steps.take (t.error + 1)) t.inputs
  silent : FirstSilent c ((⟨latch, t.flip⟩ : Fault).replay c t.inputs) t.error

structure Documented (c : Circuit) (o : Options) (stimuli : List Stimulus) (r : Report) :
    Prop where
  genuine : ∀ t ∈ r.traces, ∃ i l, c.latches[i]? = some l ∧ i < c.latches.length - o.reserved ∧
    t.latch = l.signal ∧ ∃ s ∈ stimuli, Genuine c s i t
  vulnerable : ∀ t ∈ r.traces, t.latch ∈ r.vulnerable
  once : o.diagnostic = true → ∀ x ∈ r.vulnerable, r.traces.countP (fun t => t.latch = x) = 1
  hidden : o.diagnostic = false → r.traces = []

variable {c : Circuit} {o : Observation} {os : List Observation} {n m : Nat}

theorem Silent.first (h : Silent c os n) (hNone : ∀ i < n, ¬ Silent c os i) :
    FirstSilent c os n := by
  refine ⟨h, fun i hi o ho => ?_⟩
  by_contra hDiffers
  rw [Bool.not_eq_true] at hDiffers
  exact hNone i hi ⟨fun j hj => h.quiet j (hj.trans (Nat.le_of_lt hi)), o, ho, hDiffers⟩

/-- A fault that errs has struck a latch. -/
theorem Silent.strikes {f : Fault} {inputs : List (List Bool)}
    (h : Silent c (f.replay c inputs) n) : f.time ≤ n ∧ f.latch < c.latches.length := by
  obtain ⟨o, ho, hWrong⟩ := h.wrong
  by_contra hNot
  have hSame := f.golden_eq_faulty c ho (by omega)
  rw [Observation.agrees, hSame, decide_eq_false_iff_not] at hWrong
  exact hWrong rfl

theorem Silent.lt_length {inputs : List (List Bool)} {f : Fault}
    (h : Silent c (f.replay c inputs) n) : n < inputs.length := by
  obtain ⟨o, ho, _⟩ := h.wrong
  have hLt := (List.getElem?_eq_some_iff.mp ho).1
  rwa [Fault.length_replay] at hLt

theorem Silent.exists_first (h : Silent c os n) : ∃ m ≤ n, FirstSilent c os m := by
  induction n using Nat.strong_induction_on with
  | _ n ih =>
    by_cases hNone : ∀ i < n, ¬ Silent c os i
    · exact ⟨n, Nat.le_refl n, h.first hNone⟩
    · push Not at hNone
      obtain ⟨i, hi, hEarlier⟩ := hNone
      obtain ⟨m, hm, hFirst⟩ := ih i hi hEarlier
      exact ⟨m, hm.trans (Nat.le_of_lt hi), hFirst⟩

/-- On definite steps golden alarms are constant, so that they do not hide an error. -/
theorem Silent.errs {f : Fault} {steps : List (List Level)} {inputs : List (List Bool)}
    (h : Silent c (f.replay c inputs) n) (hAdmits : AdmitsSteps steps inputs)
    (hLength : ∀ vs ∈ steps, vs.length = c.inputs.length)
    (hDefinite : ∀ vs ∈ steps, ∀ v ∈ vs, v ≠ .free) :
    Errs c (steps.take (n + 1)) f (inputs.take (n + 1)) := by
  have hConstant := Unrolling.isConstant_of_mem_alarms hLength hDefinite
  constructor
  · refine (quiet_take_iff hAdmits.length_eq).mpr fun i hi o a ho ha => ?_
    refine ⟨h.quiet i (Nat.le_of_lt_succ hi) o ho, fun hOpen => ?_⟩
    rw [hConstant a (List.mem_of_getElem? ha)] at hOpen
    cases hOpen
  · rw [Fault.getLast?_replay_take c _ h.lt_length]
    exact h.wrong

theorem silent_take_iff (hm : n < m) : Silent c (os.take m) n ↔ Silent c os n := by
  have hGet : ∀ i ≤ n, (os.take m)[i]? = os[i]? := fun i hi =>
    List.getElem?_take_of_lt (Nat.lt_of_le_of_lt hi hm)
  constructor
  · rintro ⟨hQuiet, hWrong⟩
    exact ⟨fun i hi o ho => hQuiet i hi o ((hGet i hi).trans ho), hGet n (Nat.le_refl n) ▸ hWrong⟩
  · rintro ⟨hQuiet, hWrong⟩
    refine ⟨fun i hi o ho => hQuiet i hi o ((hGet i hi).symm.trans ho), ?_⟩
    rwa [hGet n (Nat.le_refl n)]

/-- An error stays one if the run goes on. -/
theorem Silent.append {f : Fault} {inputs : List (List Bool)}
    (h : Silent c (f.replay c inputs) n) (more : List (List Bool)) :
    Silent c (f.replay c (inputs ++ more)) n := by
  have hTake : f.replay c inputs = (f.replay c (inputs ++ more)).take inputs.length := by
    rw [← Fault.replay_take, List.take_left]
  have hLt := h.lt_length
  rwa [hTake, silent_take_iff hLt] at h

theorem firstSilent_zero :
    FirstSilent c (o :: os) 0 ↔ o.faulty.alarm c = false ∧ o.agrees c = false := by
  constructor
  · rintro ⟨⟨hQuiet, o', ho', hWrong⟩, _⟩
    cases ho'
    exact ⟨hQuiet 0 (Nat.le_refl 0) o rfl, hWrong⟩
  · rintro ⟨hAlarm, hWrong⟩
    refine ⟨⟨fun i hi o' ho' => ?_, o, rfl, hWrong⟩, fun i hi => absurd hi (Nat.not_lt_zero i)⟩
    obtain rfl := Nat.le_zero.mp hi
    cases ho'
    exact hAlarm

theorem firstSilent_succ : FirstSilent c (o :: os) (n + 1) ↔
    o.faulty.alarm c = false ∧ o.agrees c = true ∧ FirstSilent c os n := by
  constructor
  · rintro ⟨⟨hQuiet, hWrong⟩, hFirst⟩
    refine ⟨hQuiet 0 (Nat.zero_le _) o rfl, hFirst 0 (Nat.succ_pos n) o rfl,
      ⟨fun i hi => hQuiet (i + 1) (Nat.succ_le_succ hi), hWrong⟩,
      fun i hi => hFirst (i + 1) (Nat.succ_lt_succ hi)⟩
  · rintro ⟨hAlarm, hAgrees, ⟨hQuiet, hWrong⟩, hFirst⟩
    refine ⟨⟨fun i hi o' ho' => ?_, hWrong⟩, fun i hi o' ho' => ?_⟩
    · cases i with
      | zero => cases ho'; exact hAlarm
      | succ i => exact hQuiet i (Nat.le_of_succ_le_succ hi) o' ho'
    · cases i with
      | zero => cases ho'; exact hAgrees
      | succ i => exact hFirst i (Nat.lt_of_succ_lt_succ hi) o' ho'

theorem FirstSilent.take (h : FirstSilent c os n) (hm : n < m) :
    FirstSilent c (os.take m) n := by
  refine ⟨(silent_take_iff hm).mpr h.toSilent, fun i hi o ho => h.first i hi o ?_⟩
  rwa [List.getElem?_take_of_lt (Nat.lt_trans hi hm)] at ho

/-- A first error in a run on the whole stimulus gives a trace. -/
theorem FirstSilent.genuine {s : Stimulus} {inputs : List (List Bool)} {latch time : Nat}
    (h : FirstSilent c ((⟨latch, time⟩ : Fault).replay c inputs) n) (hAdmits : s.Admits inputs)
    (hTime : time ≤ n) (x : Signal) :
    Genuine c s latch ⟨x, time, n, inputs.take (n + 1)⟩ := by
  have hLength := h.toSilent.lt_length
  refine ⟨hTime, List.length_take_of_le hLength, hAdmits.take (n + 1), ?_⟩
  rw [Fault.replay_take]
  exact h.take (Nat.lt_succ_self n)

theorem Quiet.faulty_alarm {steps : List (List Level)} (h : Quiet c steps os) {i : Nat}
    (ho : os[i]? = some o) : o.faulty.alarm c = false := by
  obtain ⟨hLength, hUnseen⟩ := List.forall₂_iff_get.mp h
  obtain ⟨hi, rfl⟩ := List.getElem?_eq_some_iff.mp ho
  exact (hUnseen i (hLength ▸ hi) hi).1

theorem Shows.genuine {s : Stimulus} {k : Component} {t : ErrorTrace} (h : Shows c s.steps k t) :
    Genuine c s k.index t := by
  obtain ⟨hQuiet, o, ho, hWrong⟩ := h.errs
  refine ⟨h.flip_le, h.length, h.admits,
    ⟨fun i _ o ho => hQuiet.faulty_alarm ho, o, ?_, hWrong⟩, h.first⟩
  rwa [List.getLast?_eq_getElem?, Fault.length_replay, h.length] at ho

/-- A trace can be continued to a run on the whole stimulus. -/
theorem Genuine.exists_silent {s : Stimulus} {latch : Nat} {t : ErrorTrace}
    (h : Genuine c s latch t) : ∃ inputs, s.Admits inputs ∧ t.error < s.length ∧
      Silent c ((⟨latch, t.flip⟩ : Fault).replay c inputs) t.error := by
  obtain ⟨inputs, hAdmits, hTake⟩ := h.admits.extend
  have hSilent := h.silent.toSilent
  rw [← hTake, h.length, Fault.replay_take, silent_take_iff (Nat.lt_succ_self _)] at hSilent
  exact ⟨inputs, hAdmits, lt_of_lt_of_eq hSilent.lt_length hAdmits.length_eq.symm, hSilent⟩

/-- The latches reported by a search that decides `R` of every latch. -/
theorem Finds.mem_vulnerable_iff {P : Component → ErrorTrace → Prop} {Q : Component → Prop}
    {R : Nat → Prop} {options : Options} {checked : List Component} {ts : List ErrorTrace}
    (h : Finds P Q checked ts) (hChecked : checkedLatches c options.reserved = .ok checked)
    (hP : ∀ k t, P k t → R k.index) (hQ : ∀ k, Q k → ¬ R k.index) :
    (∀ x ∈ (Report.ofTraces options ts).vulnerable, ∃ l ∈ c.latches, x = l.signal) ∧
    ∀ i l, c.latches[i]? = some l → (l.signal ∈ (Report.ofTraces options ts).vulnerable ↔
      i < c.latches.length - options.reserved ∧ R i) := by
  have hIff : ∀ x, x ∈ (Report.ofTraces options ts).vulnerable ↔
      ∃ k ∈ checked, k.signal = x ∧ R k.index := fun x =>
    mem_vulnerable.trans (h.exists_trace_iff hP hQ)
  constructor
  · intro x hx
    obtain ⟨k, hk, rfl, _⟩ := (hIff x).mp hx
    obtain ⟨_, l, hl, hSignal⟩ := (mem_checkedLatches hChecked).mp hk
    exact ⟨l, List.mem_of_getElem? hl, hSignal⟩
  intro i l hl
  rw [hIff]
  constructor
  · rintro ⟨k, hk, hSignal, hR⟩
    obtain ⟨hBound, l', hl', hSignal'⟩ := (mem_checkedLatches hChecked).mp hk
    obtain rfl : k.index = i := c.eq_of_signal_eq hl' hl (hSignal'.symm.trans hSignal)
    exact ⟨hBound, hR⟩
  · rintro ⟨hBound, hR⟩
    exact ⟨⟨i, l.signal⟩, (mem_checkedLatches hChecked).mpr ⟨hBound, l, hl, rfl⟩, rfl, hR⟩

/-- One genuine trace of some of the latches, on one of the stimuli, while `Q` is true of the
other latches and all of the stimuli. -/
def Evidence (c : Circuit) (Q : Stimulus → Component → Prop) (stimuli : List Stimulus)
    (ks : List Component) (ts : List ErrorTrace) : Prop :=
  Finds (fun k t => ∃ s ∈ stimuli, Genuine c s k.index t) (fun k => ∀ s ∈ stimuli, Q s k) ks ts

theorem Evidence.documented {Q : Stimulus → Component → Prop} {options : Options}
    {stimuli : List Stimulus} {checked : List Component} {ts : List ErrorTrace}
    (hChecked : checkedLatches c options.reserved = .ok checked)
    (h : Evidence c Q stimuli checked ts) :
    Documented c options stimuli (.ofTraces options ts) := by
  have hMem : ∀ t ∈ (Report.ofTraces options ts).traces, t ∈ ts := by
    intro t ht
    rw [Report.ofTraces] at ht
    split at ht
    · exact ht
    · cases ht
  refine ⟨fun t ht => ?_, fun t ht => mem_vulnerable.mpr ⟨t, hMem t ht, rfl⟩, fun hOn x hx => ?_,
    fun hOff => ?_⟩
  · obtain ⟨k, hk, hLatch, hGenuine⟩ := h.shows t (hMem t ht)
    obtain ⟨hIndex, l, hl, hSignal⟩ := (mem_checkedLatches hChecked).mp hk
    exact ⟨k.index, l, hl, hIndex, hLatch.trans hSignal, hGenuine⟩
  · have hTraces : (Report.ofTraces options ts).traces = ts := if_pos hOn
    obtain ⟨t, ht, hEq⟩ := mem_vulnerable.mp hx
    have hCount := List.count_eq_one_of_mem h.nodup (List.mem_map.mpr ⟨t, ht, hEq⟩)
    rw [List.count, List.countP_map] at hCount
    rw [hTraces, ← hCount]
    exact List.countP_congr fun t _ => by simp
  · exact if_neg (hOff ▸ Bool.false_ne_true)

/-- A search finds traces of some of the latches, and `ks'` are the others. -/
structure Splits (P : Component → ErrorTrace → Prop) (Q : Component → Prop) (ks : List Component)
    (ts : List ErrorTrace) (ks' : List Component) : Prop where
  finds : Finds P Q ks ts
  others : ∀ k, k ∈ ks' ↔ k ∈ ks ∧ ∀ t ∈ ts, t.latch ≠ k.signal
  sublist : ks'.Sublist ks

namespace Splits

variable {P P' : Component → ErrorTrace → Prop} {Q Q' : Component → Prop}
  {ks ks' ks'' : List Component} {ts ts' : List ErrorTrace}

theorem refl (h : ∀ k ∈ ks, Q k) : Splits P Q ks [] ks :=
  ⟨.nil h, fun _ => ⟨fun hk => ⟨hk, List.forall_mem_nil _⟩, And.left⟩, List.Sublist.refl ks⟩

theorem imp (h : Splits P Q ks ts ks') (hP : ∀ k t, P k t → P' k t) (hQ : ∀ k, Q k → Q' k) :
    Splits P' Q' ks ts ks' :=
  ⟨h.finds.imp hP hQ, h.others, h.sublist⟩

theorem trans (h : Splits P Q ks ts ks') (h' : Splits P Q' ks' ts' ks'') :
    Splits P (fun k => Q k ∧ Q' k) ks (ts ++ ts') ks'' := by
  refine ⟨h.finds.append h'.finds h.others, fun k => ?_, h'.sublist.trans h.sublist⟩
  rw [h'.others, h.others, List.forall_mem_append, and_assoc]

/-- The traces are the values of a partial function of the latches. -/
theorem filterMap {f : Component → Option ErrorTrace} (hNodup : (ks.map Component.signal).Nodup)
    (hShows : ∀ k t, f k = some t → t.latch = k.signal ∧ P k t) (hNone : ∀ k, f k = none → Q k) :
    Splits P Q ks (ks.filterMap f) (ks.filter fun k => (f k).isNone) := by
  have hOthers : ∀ k ∈ ks, (∀ t ∈ ks.filterMap f, t.latch ≠ k.signal) → f k = none := by
    intro k hk hOthers
    refine Option.eq_none_iff_forall_not_mem.mpr fun t ht => ?_
    exact hOthers t (List.mem_filterMap.mpr ⟨k, hk, ht⟩) (hShows k t ht).1
  refine ⟨⟨fun t ht => ?_, ?_, fun k hk h => hNone k (hOthers k hk h)⟩, fun k => ?_,
    List.filter_sublist⟩
  · obtain ⟨k, hk, hSome⟩ := List.mem_filterMap.mp ht
    exact ⟨k, hk, hShows k t hSome⟩
  · rw [List.Nodup, List.pairwise_map, List.pairwise_filterMap]
    refine (List.pairwise_map.mp hNodup).imp fun hNe t ht t' ht' hEq => hNe ?_
    rw [← (hShows _ t ht).1, hEq, (hShows _ t' ht').1]
  · rw [List.mem_filter, Option.isNone_iff_eq_none]
    refine and_congr_right fun hk => ⟨fun hNone t ht hEq => ?_, hOthers k hk⟩
    obtain ⟨k', hk', hSome⟩ := List.mem_filterMap.mp ht
    have hSame := List.inj_on_of_nodup_map hNodup hk' hk ((hShows k' t hSome).1.symm.trans hEq)
    rw [hSame, hNone] at hSome
    cases hSome

/-- The search goes on with the other stimuli for the latches that are left. -/
theorem evidence {Q : Stimulus → Component → Prop} {s : Stimulus} {stimuli : List Stimulus}
    (h : Splits (fun k t => Genuine c s k.index t) (Q s) ks ts ks')
    (h' : Evidence c Q stimuli ks' ts') : Evidence c Q (s :: stimuli) ks (ts ++ ts') := by
  have hHere : Finds (fun k t => ∃ s' ∈ s :: stimuli, Genuine c s' k.index t) (Q s) ks ts :=
    h.finds.imp (fun k t hGenuine => ⟨s, List.mem_cons_self, hGenuine⟩) fun _ => id
  have hLater : Finds (fun k t => ∃ s' ∈ s :: stimuli, Genuine c s' k.index t)
      (fun k => ∀ s ∈ stimuli, Q s k) ks' ts' :=
    h'.imp (fun k t hShows => hShows.imp fun s' => And.imp_left (List.mem_cons_of_mem s))
      fun _ => id
  exact (hHere.append hLater h.others).imp (fun _ _ => id) fun k =>
    (List.forall_mem_cons (p := fun s => Q s k)).mpr

end Splits

end SoftError.Vulnerability

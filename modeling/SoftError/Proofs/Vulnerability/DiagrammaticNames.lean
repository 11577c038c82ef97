import Mathlib.Data.List.Induction
import Mathlib.Data.List.Pairwise
import Mathlib.Data.List.Perm.Subperm
import SoftError.Proofs.Diagram.Ordered
import SoftError.Proofs.Fault.Choice
import SoftError.Vulnerability.Diagrammatic

/-!
# Faults named by diagram variables

An assignment names a fault if it sets the variables of its latch and of its step and no other.
The assignments with at most one latch and at most one step are those that name a fault of a
candidate, or none. So a satisfying assignment is read as the fault that it names.
-/

namespace SoftError.Vulnerability.Diagrammatic

open Diagram (setting)

variable {c : Circuit} {all : List Candidate} {ρ : Assignment} {f : Fault} {n : Nat}

/-- No two of the variables are set. -/
def Exclusive (ρ : Assignment) (vs : List Nat) : Prop :=
  vs.Pairwise fun v w => ¬ (ρ v = true ∧ ρ w = true)

theorem Exclusive.eq_decide {vs : List Nat} (h : Exclusive ρ vs) {v w : Nat} (hv : v ∈ vs)
    (hw : w ∈ vs) (hSet : ρ v = true) : ρ w = decide (w = v) := by
  have : Std.Symm fun v w => ¬ (ρ v = true ∧ ρ w = true) := ⟨fun _ _ hNot hSet => hNot hSet.symm⟩
  by_cases hEq : w = v
  · rw [hEq, hSet, decide_eq_true rfl]
  · rw [decide_eq_false hEq, Bool.eq_false_iff]
    exact fun hOther => h.forall hw hv hEq ⟨hOther, hSet⟩

namespace Choice

theorem ofVars_snoc (vs : List Nat) (v : Nat) : ofVars (vs ++ [v]) = (ofVars vs).add v :=
  List.foldl_concat add {} v vs

theorem eval_any (ρ : Assignment) (vs : List Nat) :
    (ofVars vs).any.eval ρ = true ↔ ∃ v ∈ vs, ρ v = true := by
  induction vs using List.reverseRecOn with
  | nil => simp [ofVars, Diagram.eval]
  | append_singleton vs v ih =>
    rw [ofVars_snoc, add, Diagram.eval_or, Bool.or_eq_true, ih, Diagram.eval_ofVar]
    simp [or_and_right, exists_or]

theorem eval_single (ρ : Assignment) (vs : List Nat) :
    (ofVars vs).single.eval ρ = true ↔ Exclusive ρ vs := by
  induction vs using List.reverseRecOn with
  | nil => exact iff_of_true rfl List.Pairwise.nil
  | append_singleton vs v ih =>
    -- Beside the others the new variable may only be set if none of them is.
    have hNew : (ofVars vs).any.eval ρ = true ∧ ρ v = true ↔
        ¬ ∀ w ∈ vs, ¬ (ρ w = true ∧ ρ v = true) := by
      rw [eval_any]
      push Not
      exact ⟨fun ⟨⟨w, hw, hSet⟩, hv⟩ => ⟨w, hw, hSet, hv⟩,
        fun ⟨w, hw, hSet, hv⟩ => ⟨⟨w, hw, hSet⟩, hv⟩⟩
    rw [ofVars_snoc, add, Diagram.eval_and, Bool.and_eq_true, ih, Diagram.eval_not,
      Bool.not_eq_true', Bool.eq_false_iff, Diagram.eval_and, Ne, Bool.and_eq_true,
      Diagram.eval_ofVar, hNew, not_not, Exclusive, Exclusive, List.pairwise_append]
    simp only [List.pairwise_singleton, List.forall_mem_singleton, true_and]

theorem ordered_ofVars (vs : List Nat) :
    (ofVars vs).single.Ordered 0 ∧ (ofVars vs).any.Ordered 0 := by
  induction vs using List.reverseRecOn with
  | nil => exact ⟨trivial, trivial⟩
  | append_singleton vs v ih =>
    rw [ofVars_snoc]
    exact ⟨ih.1.and (ih.2.and (Diagram.ordered_ofVar v)).not, ih.2.or (Diagram.ordered_ofVar v)⟩

end Choice

/-- The candidates have the first variables, in order. -/
structure Numbered (c : Circuit) (all : List Candidate) : Prop extends Candidates c all where
  vars : all.map Prod.snd = List.range all.length

/-- Of the variables of the latches and of the first `n` steps those of the fault are set. -/
structure Names (all : List Candidate) (n : Nat) (ρ : Assignment) (f : Fault) : Prop where
  latch : ∀ k ∈ all, ρ k.2 = decide (k.1.index = f.latch)
  time : ∀ i < n, ρ (all.length + i) = decide (i = f.time)

theorem Names.mono {m : Nat} (h : Names all n ρ f) (hm : m ≤ n) : Names all m ρ f :=
  ⟨h.latch, fun i hi => h.time i (hi.trans_le hm)⟩

/-- The variables of the first `n` steps. -/
def stepVars (all : List Candidate) (n : Nat) : List Nat := List.range' all.length n

theorem stepVars_succ (all : List Candidate) (n : Nat) :
    stepVars all (n + 1) = stepVars all n ++ [all.length + n] := by
  rw [stepVars, List.range'_concat, Nat.one_mul, stepVars]

theorem mem_stepVars {v : Nat} : v ∈ stepVars all n ↔ ∃ i < n, v = all.length + i := by
  rw [stepVars, List.mem_range'_1]
  constructor
  · rintro ⟨hLe, hLt⟩
    exact ⟨v - all.length, by omega, by omega⟩
  · rintro ⟨i, hi, rfl⟩
    omega

theorem exists_time (h : Exclusive ρ (stepVars all n)) :
    ∃ time, ∀ i < n, ρ (all.length + i) = decide (i = time) := by
  by_cases hSome : ∃ i < n, ρ (all.length + i) = true
  · obtain ⟨time, hTime, hSet⟩ := hSome
    refine ⟨time, fun i hi => ?_⟩
    rw [h.eq_decide (mem_stepVars.mpr ⟨time, hTime, rfl⟩) (mem_stepVars.mpr ⟨i, hi, rfl⟩) hSet,
      decide_eq_decide]
    exact Nat.add_left_cancel_iff
  · refine ⟨n, fun i hi => ?_⟩
    rw [decide_eq_false (Nat.ne_of_lt hi), Bool.eq_false_iff]
    exact fun hSet => hSome ⟨i, hi, hSet⟩

theorem Names.exclusive_stepVars (h : Names all n ρ f) : Exclusive ρ (stepVars all n) := by
  refine (List.nodup_range' 1).imp_of_mem fun {v w} hv hw hNe => ?_
  obtain ⟨i, hi, rfl⟩ := mem_stepVars.mp hv
  obtain ⟨j, hj, rfl⟩ := mem_stepVars.mp hw
  rw [h.time i hi, h.time j hj, decide_eq_true_eq, decide_eq_true_eq]
  rintro ⟨rfl, rfl⟩
  exact hNe rfl

namespace Numbered

variable (h : Numbered c all)
include h

theorem var_lt {k : Candidate} (hk : k ∈ all) : k.2 < all.length := by
  have hMem := List.mem_map_of_mem (f := Prod.snd) hk
  rw [h.vars] at hMem
  exact List.mem_range.mp hMem

theorem eq_of_var {k k' : Candidate} (hk : k ∈ all) (hk' : k' ∈ all) (hVar : k.2 = k'.2) :
    k = k' := by
  have hNodup : (all.map Prod.snd).Nodup := by
    rw [h.vars]
    exact List.nodup_range
  exact List.inj_on_of_nodup_map hNodup hk hk' hVar

theorem exists_latch (hOne : Exclusive ρ (all.map Prod.snd)) :
    ∃ j, (∀ k ∈ all, ρ k.2 = decide (k.1.index = j)) ∧
      (j ∈ all.map (fun k => k.1.index) ∨ c.latches.length ≤ j) := by
  by_cases hSome : ∃ k ∈ all, ρ k.2 = true
  · obtain ⟨k, hk, hSet⟩ := hSome
    refine ⟨k.1.index, fun k' hk' => ?_, .inl (List.mem_map_of_mem hk)⟩
    rw [hOne.eq_decide (List.mem_map_of_mem hk) (List.mem_map_of_mem hk') hSet, decide_eq_decide]
    exact ⟨fun hVar => congrArg (fun k : Candidate => k.1.index) (h.eq_of_var hk' hk hVar),
      fun hIndex => congrArg Prod.snd (h.eq_of_index hk' hk hIndex)⟩
  · refine ⟨c.latches.length, fun k hk => ?_, .inr (Nat.le_refl _)⟩
    rw [decide_eq_false (Nat.ne_of_lt (h.index_lt hk)), Bool.eq_false_iff]
    exact fun hSet => hSome ⟨k, hk, hSet⟩

theorem exclusive_of_names (hf : Names all n ρ f) : Exclusive ρ (all.map Prod.snd) := by
  rw [Exclusive, List.pairwise_map]
  refine (List.pairwise_map.mp h.distinct).imp_of_mem fun {k k'} hk hk' hNe => ?_
  rw [hf.latch k hk, hf.latch k' hk', decide_eq_true_eq, decide_eq_true_eq]
  rintro ⟨hLatch, hLatch'⟩
  exact hNe (hLatch.trans hLatch'.symm)

/-- The assignments with at most one latch and at most one step name a fault, or none. -/
theorem single_iff :
    (location all).eval ρ = true ∧ (Choice.ofVars (stepVars all n)).single.eval ρ = true ↔
      ∃ f, Possible c all f ∧ Names all n ρ f := by
  rw [location, Choice.eval_single, Choice.eval_single]
  constructor
  · rintro ⟨hLatches, hSteps⟩
    obtain ⟨latch, hLatch, hPossible⟩ := h.exists_latch hLatches
    obtain ⟨time, hTime⟩ := exists_time hSteps
    exact ⟨⟨latch, time⟩, hPossible, hLatch, hTime⟩
  · rintro ⟨f, _, hf⟩
    exact ⟨h.exclusive_of_names hf, hf.exclusive_stepVars⟩

/-- Any fault of a candidate can be named. -/
theorem names_setting {k : Candidate} (hk : k ∈ all) (time : Nat) :
    Names all n (setting [k.2, all.length + time]) ⟨k.1.index, time⟩ := by
  refine ⟨fun k' hk' => ?_, fun i _ => ?_⟩
  · have hVar := h.var_lt hk'
    rw [setting, decide_eq_decide, List.mem_cons, List.mem_singleton]
    constructor
    · rintro (hEq | hEq)
      · rw [h.eq_of_var hk' hk hEq]
      · omega
    · intro hIndex
      exact .inl (congrArg Prod.snd (h.eq_of_index hk' hk hIndex))
  · have hVar := h.var_lt hk
    rw [setting, decide_eq_decide, List.mem_cons, List.mem_singleton]
    change _ ↔ i = time
    omega

end Numbered

/-- Whatever satisfies the diagram names a fault of a candidate in the first `n` steps. -/
def Named (all : List Candidate) (n : Nat) (d : Diagram) : Prop :=
  ∀ ρ, d.eval ρ = true → ∃ k ∈ all, ∃ time < n, Names all n ρ ⟨k.1.index, time⟩

theorem Named.and {d : Diagram} (h : Named all n d) (d' : Diagram) : Named all n (d.and d') := by
  intro ρ hρ
  rw [Diagram.eval_and, Bool.and_eq_true] at hρ
  exact h ρ hρ.1

/-- What is left of a diagram once a candidate has been found. -/
theorem eval_exclude {d : Diagram} {v : Nat} :
    (d.and (Diagram.ofVar v).not).eval ρ = true ↔ d.eval ρ = true ∧ ρ v = false := by
  simp

theorem Names.set {k : Candidate} {time : Nat} (h : Names all n ρ ⟨k.1.index, time⟩)
    (hk : k ∈ all) : ρ k.2 = true := by
  rw [h.latch k hk, decide_eq_true rfl]

section Witnesses

variable {chooser : Diagram.Chooser} (hAll : Numbered c all) {d : Diagram}
  (hOrdered : d.Ordered 0) (hNamed : Named all n d)
include hAll hOrdered hNamed

/-- A chosen assignment is read as the fault that it names. -/
theorem Numbered.names_chosen {ρ : Assignment} (hChoose : chooser.choose? d = some ρ) :
    d.eval ρ = true ∧ ∃ k ∈ all, all.find? (fun k => ρ k.2) = some k ∧
      Names all n ρ ⟨k.1.index,
        ((List.range n).find? fun i => ρ (all.length + i)).getD (n - 1)⟩ := by
  have hEval := chooser.sound hOrdered hChoose
  obtain ⟨k, hk, time, hTime, hNames⟩ := hNamed ρ hEval
  have hLatch : all.find? (fun k => ρ k.2) = some k := by
    refine find?_eq_some_of_unique hk (hNames.set hk) fun k' hk' hSet => ?_
    have hIndex := hNames.latch k' hk'
    rw [hSet, eq_comm, decide_eq_true_eq] at hIndex
    exact hAll.eq_of_index hk' hk hIndex
  have hStep : ((List.range n).find? fun i => ρ (all.length + i)) = some time := by
    refine find?_eq_some_of_unique (List.mem_range.mpr hTime) ?_ fun i hi hSet => ?_
    · exact (hNames.time time hTime).trans (decide_eq_true rfl)
    · have hEq := hNames.time i (List.mem_range.mp hi)
      rwa [hSet, eq_comm, decide_eq_true_eq] at hEq
  refine ⟨hEval, k, hk, hLatch, ?_⟩
  rw [hStep, Option.getD_some]
  exact hNames

/-- Every fault that is listed is named by an assignment that satisfies the diagram. -/
theorem Numbered.mem_witnesses {limit : Nat} : ∀ w ∈ witnesses chooser all n limit d,
    w.1 ∈ all ∧ ∃ ρ, d.eval ρ = true ∧ Names all n ρ ⟨w.1.1.index, w.2⟩ := by
  induction limit generalizing d with
  | zero => exact List.forall_mem_nil _
  | succ limit ih =>
    rw [witnesses]
    cases hChoose : chooser.choose? d with
    | none => exact List.forall_mem_nil _
    | some ρ₀ =>
      obtain ⟨hEval, k, hk, hFind, hNames⟩ := hAll.names_chosen hOrdered hNamed hChoose
      simp only [hFind]
      refine List.forall_mem_cons.mpr ⟨⟨hk, _, hEval, hNames⟩, fun w hw => ?_⟩
      obtain ⟨hMem, ρ, hρ, hNames⟩ :=
        ih (hOrdered.and (Diagram.ordered_ofVar k.2).not) (hNamed.and _) w hw
      exact ⟨hMem, ρ, (eval_exclude.mp hρ).1, hNames⟩

theorem Numbered.nodup_witnesses {limit : Nat} :
    ((witnesses chooser all n limit d).map Prod.fst).Nodup := by
  induction limit generalizing d with
  | zero => exact List.nodup_nil
  | succ limit ih =>
    rw [witnesses]
    cases hChoose : chooser.choose? d with
    | none => exact List.nodup_nil
    | some ρ₀ =>
      obtain ⟨_, k, _, hFind, _⟩ := hAll.names_chosen hOrdered hNamed hChoose
      simp only [hFind]
      have hOrdered' := hOrdered.and (Diagram.ordered_ofVar k.2).not
      rw [List.map_cons, List.nodup_cons]
      refine ⟨fun hMem => ?_, ih hOrdered' (hNamed.and _)⟩
      obtain ⟨w, hw, rfl⟩ := List.mem_map.mp hMem
      obtain ⟨hk, ρ, hρ, hNames⟩ := hAll.mem_witnesses hOrdered' (hNamed.and _) w hw
      have hSet := hNames.set hk
      rw [(eval_exclude.mp hρ).2] at hSet
      cases hSet

/-- The list goes on until the diagram is exhausted. The candidates that are `done` are
excluded by the diagram, so that the limit suffices for the others. -/
theorem Numbered.exists_witness {limit : Nat} {done : List Candidate}
    (hDone : ∀ ρ, d.eval ρ = true → ∀ k ∈ done, ρ k.2 = false) (hNodup : done.Nodup)
    (hSubset : done ⊆ all) (hLimit : all.length ≤ done.length + limit) (hEval : d.eval ρ = true) :
    ∃ w ∈ witnesses chooser all n limit d, ρ w.1.2 = true := by
  induction limit generalizing d done with
  | zero =>
    obtain ⟨k, hk, _, _, hNames⟩ := hNamed ρ hEval
    have hSet := hNames.set hk
    -- nothing is left: all candidates are done, and so is the one named
    have hPerm := (hNodup.subperm hSubset).perm_of_length_le hLimit
    have hMem : k ∈ done := hPerm.mem_iff.mpr hk
    rw [hDone ρ hEval k hMem] at hSet
    cases hSet
  | succ limit ih =>
    rw [witnesses]
    cases hChoose : chooser.choose? d with
    | none =>
      rw [chooser.complete hOrdered hChoose] at hEval
      cases hEval
    | some ρ₀ =>
      obtain ⟨hSet, k, hk, hFind, hNames⟩ := hAll.names_chosen hOrdered hNamed hChoose
      simp only [hFind]
      by_cases hHere : ρ k.2 = true
      · exact ⟨_, List.mem_cons_self, hHere⟩
      have hNew : k ∉ done := by
        intro hMem
        have hClear := hDone _ hSet k hMem
        rw [hNames.set hk] at hClear
        cases hClear
      have hExcluded : ∀ ρ, (d.and (Diagram.ofVar k.2).not).eval ρ = true →
          ∀ k' ∈ k :: done, ρ k'.2 = false := by
        intro ρ hρ
        obtain ⟨hRest, hClear⟩ := eval_exclude.mp hρ
        exact List.forall_mem_cons.mpr ⟨hClear, hDone ρ hRest⟩
      obtain ⟨w, hw, hLater⟩ := ih (hOrdered.and (Diagram.ordered_ofVar k.2).not) (hNamed.and _)
        hExcluded (List.nodup_cons.mpr ⟨hNew, hNodup⟩) (List.cons_subset.mpr ⟨hk, hSubset⟩)
        (by rw [List.length_cons]; omega)
        (eval_exclude.mpr ⟨hEval, Bool.eq_false_iff.mpr hHere⟩)
      exact ⟨w, List.mem_cons_of_mem _ hw, hLater⟩

end Witnesses

end SoftError.Vulnerability.Diagrammatic

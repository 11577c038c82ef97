import Mathlib.Data.List.Nodup
import SoftError.Proofs.Circuit.Values

/-!
# Evaluated gates

Evaluating the gates writes their variables only. The gates are listed in an order in which
none reads itself or a later one, so afterwards all gate equations hold at once, and the
values of the other variables determine the result. What the gates held before is forgotten.
-/

namespace SoftError

namespace Table

variable {α : Type}

theorem get_setAll_of_notMem {ss : List Signal} {v : Nat} (h : v ∉ ss.map Signal.var)
    (T : Table α) (xs : List α) : (T.setAll ss xs).get v = T.get v := by
  induction ss generalizing T xs with
  | nil => rfl
  | cons s ss ih =>
    cases xs with
    | nil => rfl
    | cons x xs =>
      rw [List.map_cons, List.mem_cons, not_or] at h
      rw [setAll, ih h.2, get_set, if_neg (Ne.symm h.1)]

theorem get_setAll_congr {T T' : Table α} {v : Nat} (h : T.get v = T'.get v) (ss : List Signal)
    (xs : List α) : (T.setAll ss xs).get v = (T'.setAll ss xs).get v := by
  induction ss generalizing T T' xs with
  | nil => exact h
  | cons s ss ih =>
    cases xs with
    | nil => exact h
    | cons x xs =>
      apply ih
      rw [get_set, get_set, h]

theorem get_setLatches_of_notMem {ls : List Latch} {v : Nat}
    (h : v ∉ ls.map fun l => l.signal.var) (T : Table α) (xs : List α) :
    (T.setLatches ls xs).get v = T.get v := by
  rw [setLatches_eq_setAll]
  exact get_setAll_of_notMem (by rwa [List.map_map]) T xs

theorem map_get_setAll {ss : List Signal} (h : (ss.map Signal.var).Nodup) (T : Table α)
    {xs : List α} (hLength : xs.length = ss.length) :
    ss.map (fun s => (T.setAll ss xs).get s.var) = xs := by
  induction ss generalizing T xs with
  | nil => exact (List.length_eq_zero_iff.mp hLength).symm
  | cons s ss ih =>
    obtain _ | ⟨x, xs⟩ := xs
    · cases hLength
    rw [List.map_cons, List.nodup_cons] at h
    rw [List.map_cons, setAll, get_setAll_of_notMem h.1, get_set, if_pos rfl,
      ih h.2 _ (Nat.succ.inj hLength)]

theorem map_get_setLatches {ls : List Latch} (h : (ls.map fun l => l.signal.var).Nodup)
    (T : Table α) {xs : List α} (hLength : xs.length = ls.length) :
    ls.map (fun l => (T.setLatches ls xs).get l.signal.var) = xs := by
  have hNodup : ((ls.map Latch.signal).map Signal.var).Nodup := by rwa [List.map_map]
  have hSignals : xs.length = (ls.map Latch.signal).length := by rwa [List.length_map]
  have hMap := map_get_setAll hNodup T hSignals
  rwa [List.map_map, ← setLatches_eq_setAll] at hMap

theorem read_of_plain [SignalValue α] {s : Signal} (h : s.negated = false) (T : Table α) :
    T.read s = T.get s.var := by
  rw [read, h]
  rfl

end Table

namespace Circuit

variable (c : Circuit)

theorem inputs_nodup : (c.inputs.map Signal.var).Nodup := by
  have h := c.wellFormed.distinct
  rw [Netlist.definitions, List.map_append, List.map_append] at h
  exact (List.nodup_append.mp (List.nodup_append.mp h).1).1

theorem latches_nodup : (c.latches.map fun l => l.signal.var).Nodup := by
  have h := c.wellFormed.distinct
  rw [Netlist.definitions, List.map_append, List.map_append, List.map_map] at h
  exact (List.nodup_append.mp (List.nodup_append.mp h).1).2.1

theorem eq_of_var_eq {i j : Nat} {l k : Latch} (hl : c.latches[i]? = some l)
    (hk : c.latches[j]? = some k) (h : l.signal.var = k.signal.var) : i = j := by
  refine (List.getElem?_inj ?_ c.latches_nodup).mp ?_
  · rw [List.length_map]
    exact (List.getElem?_eq_some_iff.mp hl).1
  · rw [List.getElem?_map, List.getElem?_map, hl, hk, Option.map_some, Option.map_some, h]

theorem eq_of_signal_eq {i j : Nat} {l k : Latch} (hl : c.latches[i]? = some l)
    (hk : c.latches[j]? = some k) (h : l.signal = k.signal) : i = j :=
  c.eq_of_var_eq hl hk (congrArg Signal.var h)

theorem gates_nodup : (c.gates.map Gate.var).Nodup :=
  Netlist.gates_nodup_of_definitions c.wellFormed.distinct

theorem zero_notMem_definitions : 0 ∉ c.definitions.map Signal.var := by
  intro hMem
  obtain ⟨s, hs, hZero⟩ := List.mem_map.mp hMem
  exact c.wellFormed.var_ne_zero s hs hZero

theorem input_mem_definitions {s : Signal} (h : s ∈ c.inputs) : s ∈ c.definitions :=
  List.mem_append_left _ (List.mem_append_left _ h)

theorem latch_mem_definitions {l : Latch} (h : l ∈ c.latches) : l.signal ∈ c.definitions :=
  List.mem_append_left _ (List.mem_append_right _ (List.mem_map_of_mem h))

theorem gate_mem_definitions {g : Gate} (h : g ∈ c.gates) : g.out ∈ c.definitions :=
  List.mem_append_right _ (List.mem_map_of_mem h)

theorem output_mem_uses {s : Signal} (h : s ∈ c.outputs) : s ∈ c.uses :=
  List.mem_append_left _ (List.mem_append_right _ h)

theorem next_mem_uses {l : Latch} (h : l ∈ c.latches) : l.next ∈ c.uses :=
  List.mem_append_left _ (List.mem_append_left _ (List.mem_map_of_mem h))

theorem fanin_mem_uses {g : Gate} (h : g ∈ c.gates) {s : Signal} (hs : s = g.left ∨ s = g.right) :
    s ∈ c.uses :=
  List.mem_append_right _ (List.mem_flatMap.mpr ⟨g, h, by simpa using hs⟩)

theorem input_plain {s : Signal} (h : s ∈ c.inputs) : s.negated = false :=
  c.wellFormed.plain s (c.input_mem_definitions h)

theorem latch_plain {l : Latch} (h : l ∈ c.latches) : l.signal.negated = false :=
  c.wellFormed.plain _ (c.latch_mem_definitions h)

theorem gate_plain {g : Gate} (h : g ∈ c.gates) : g.out.negated = false :=
  c.wellFormed.plain _ (c.gate_mem_definitions h)

theorem input_notMem_gates {s : Signal} (h : s ∈ c.inputs) : s.var ∉ c.gates.map Gate.var := by
  have hDistinct := c.wellFormed.distinct
  rw [Netlist.definitions, List.map_append, List.map_map] at hDistinct
  intro hGate
  refine (List.nodup_append.mp hDistinct).2.2 _ ?_ _ hGate rfl
  exact List.mem_map_of_mem (List.mem_append_left _ h)

theorem latch_notMem_gates {l : Latch} (h : l ∈ c.latches) :
    l.signal.var ∉ c.gates.map Gate.var := by
  have hDistinct := c.wellFormed.distinct
  rw [Netlist.definitions, List.map_append, List.map_map] at hDistinct
  intro hGate
  refine (List.nodup_append.mp hDistinct).2.2 _ ?_ _ hGate rfl
  exact List.mem_map_of_mem (List.mem_append_right _ (List.mem_map_of_mem h))

theorem input_notMem_latches {s : Signal} (h : s ∈ c.inputs) :
    s.var ∉ c.latches.map fun l => l.signal.var := by
  have hDistinct := c.wellFormed.distinct
  rw [Netlist.definitions, List.map_append, List.map_append, List.map_map] at hDistinct
  intro hLatch
  exact (List.nodup_append.mp (List.nodup_append.mp hDistinct).1).2.2 _
    (List.mem_map_of_mem h) _ hLatch rfl

theorem latch_notMem_inputs {l : Latch} (h : l ∈ c.latches) :
    l.signal.var ∉ c.inputs.map Signal.var := by
  intro hInput
  obtain ⟨s, hs, hVar⟩ := List.mem_map.mp hInput
  exact c.input_notMem_latches hs (hVar ▸ List.mem_map_of_mem (f := fun l => l.signal.var) h)

theorem mem_definitions_iff {x : Nat} : x ∈ c.definitions.map Signal.var ↔
    x ∈ c.inputs.map Signal.var ∨ x ∈ c.latches.map (fun l => l.signal.var) ∨
      x ∈ c.gates.map Gate.var := by
  rw [Netlist.definitions, List.map_append, List.map_append, List.mem_append, List.mem_append,
    List.map_map, List.map_map, or_assoc]
  rfl

theorem zero_notMem_inputs : 0 ∉ c.inputs.map Signal.var := fun h =>
  c.zero_notMem_definitions (c.mem_definitions_iff.mpr (.inl h))

theorem zero_notMem_latches : 0 ∉ c.latches.map fun l => l.signal.var := fun h =>
  c.zero_notMem_definitions (c.mem_definitions_iff.mpr (.inr (.inl h)))

theorem zero_notMem_gates : 0 ∉ c.gates.map Gate.var := fun h =>
  c.zero_notMem_definitions (c.mem_definitions_iff.mpr (.inr (.inr h)))

/-- The variables that have a value: the constant and those defined. -/
def named : List Nat := 0 :: c.definitions.map Signal.var

theorem named_nodup : c.named.Nodup :=
  List.nodup_cons.mpr ⟨c.zero_notMem_definitions, c.wellFormed.distinct⟩

theorem mem_named_iff {x : Nat} : x ∈ c.named ↔ x = 0 ∨ x ∈ c.inputs.map Signal.var ∨
    x ∈ c.latches.map (fun l => l.signal.var) ∨ x ∈ c.gates.map Gate.var := by
  rw [named, List.mem_cons, mem_definitions_iff]

theorem mem_named_of_uses {s : Signal} (h : s ∈ c.uses) : s.var ∈ c.named :=
  List.mem_cons.mpr (c.wellFormed.defined s h)

theorem mem_named_of_definitions {s : Signal} (h : s ∈ c.definitions) : s.var ∈ c.named :=
  List.mem_cons_of_mem _ (List.mem_map_of_mem h)

theorem mem_named_of_inputs {s : Signal} (h : s ∈ c.inputs) : s.var ∈ c.named :=
  c.mem_named_of_definitions (c.input_mem_definitions h)

theorem mem_named_of_gates {g : Gate} (h : g ∈ c.gates) : g.out.var ∈ c.named :=
  c.mem_named_of_definitions (c.gate_mem_definitions h)

theorem observed_subset_uses : c.observed ⊆ c.uses := fun _ hs =>
  c.output_mem_uses (List.dropLast_subset _ hs)

theorem alarm_mem_uses {s : Signal} (h : c.alarm? = some s) : s ∈ c.uses :=
  c.output_mem_uses (List.mem_of_getLast? h)

end Circuit

namespace Table

/-- The value of a signal, given those of the variables. -/
def signalValue (v : Nat → Bool) (s : Signal) : Bool := v s.var ^^ s.negated

theorem signalValue_of_plain {s : Signal} (h : s.negated = false) (v : Nat → Bool) :
    signalValue v s = v s.var := by
  rw [signalValue, h, Bool.xor_false]

theorem read_eq_signalValue (t : Table Bool) (s : Signal) : t.read s = signalValue t.get s := by
  rw [read, signalValue]
  cases s.negated with
  | false => exact (Bool.xor_false _).symm
  | true => exact (Bool.xor_true _).symm

theorem get_foldl_evalGate_of_notMem {α : Type} [GateValue α] {gates : List Gate} {v : Nat}
    (h : v ∉ gates.map Gate.var) (t : Table α) : (gates.foldl evalGate t).get v = t.get v := by
  induction gates generalizing t with
  | nil => rfl
  | cons g gates ih =>
    rw [List.map_cons, List.mem_cons, not_or] at h
    rw [List.foldl_cons, ih h.2, evalGate, get_set, if_neg (Ne.symm h.1)]

/-- Values that satisfy the gate equations are those of the evaluated gates. -/
theorem eq_foldl_evalGate {gates : List Gate} (hSorted : Netlist.Sorted gates) {v : Nat → Bool}
    {t : Table Bool} (hLeaf : ∀ x, x ∉ gates.map Gate.var → v x = t.get x)
    (hGate : ∀ g ∈ gates, v g.var = (signalValue v g.left && signalValue v g.right)) (x : Nat) :
    v x = (gates.foldl evalGate t).get x := by
  induction gates generalizing t with
  | nil => exact hLeaf x List.not_mem_nil
  | cons g gates ih =>
    obtain ⟨hReads, hSorted⟩ := hSorted
    obtain ⟨hFirst, hGate⟩ := List.forall_mem_cons.mp hGate
    refine ih hSorted (fun y hy => ?_) hGate
    -- the fanins of the first gate are no gates of the list
    have hFanin : ∀ s : Signal, (∀ d ∈ g :: gates, s.var ≠ d.var) →
        signalValue v s = t.read s := by
      intro s hs
      rw [read_eq_signalValue, signalValue, signalValue, hLeaf]
      intro hMem
      obtain ⟨d, hd, hVar⟩ := List.mem_map.mp hMem
      exact hs d hd hVar.symm
    rw [evalGate, get_set]
    split
    · rename_i hVar
      rw [← hVar, hFirst, hFanin g.left fun d hd => (hReads d hd).1,
        hFanin g.right fun d hd => (hReads d hd).2]
      rfl
    · rename_i hVar
      apply hLeaf
      rw [List.map_cons, List.mem_cons, not_or]
      exact ⟨Ne.symm hVar, hy⟩

theorem foldl_evalGate_consistent {gates : List Gate} (hSorted : Netlist.Sorted gates)
    (hNodup : (gates.map Gate.var).Nodup) (t : Table Bool) :
    ∀ g ∈ gates, (gates.foldl evalGate t).get g.var =
      ((gates.foldl evalGate t).read g.left && (gates.foldl evalGate t).read g.right) := by
  induction gates generalizing t with
  | nil => intro g hg; cases hg
  | cons g gates ih =>
    obtain ⟨hReads, hSorted⟩ := hSorted
    rw [List.map_cons, List.nodup_cons] at hNodup
    rw [List.foldl_cons, List.forall_mem_cons]
    refine ⟨?_, ih hSorted hNodup.2 _⟩
    have hFanin : ∀ s : Signal, (∀ d ∈ g :: gates, s.var ≠ d.var) →
        (gates.foldl evalGate (t.evalGate g)).read s = t.read s := by
      intro s hs
      have hLater : s.var ∉ gates.map Gate.var := by
        intro hMem
        obtain ⟨d, hd, hVar⟩ := List.mem_map.mp hMem
        exact hs d (List.mem_cons_of_mem _ hd) hVar.symm
      rw [read_eq_signalValue, read_eq_signalValue, signalValue, signalValue,
        get_foldl_evalGate_of_notMem hLater, evalGate, get_set,
        if_neg (Ne.symm (hs g List.mem_cons_self))]
    rw [get_foldl_evalGate_of_notMem hNodup.1, hFanin g.left fun d hd => (hReads d hd).1,
      hFanin g.right fun d hd => (hReads d hd).2, evalGate, get_set, if_pos rfl]
    rfl

variable (c : Circuit)

theorem settle_consistent (t : Table Bool) :
    ∀ g ∈ c.gates, (t.settle c).get g.var =
      ((t.settle c).read g.left && (t.settle c).read g.right) :=
  foldl_evalGate_consistent c.wellFormed.sorted c.gates_nodup t

theorem eq_settle {v : Nat → Bool} {t : Table Bool}
    (hLeaf : ∀ x, x ∉ c.gates.map Gate.var → v x = t.get x)
    (hGate : ∀ g ∈ c.gates, v g.var = (signalValue v g.left && signalValue v g.right)) (x : Nat) :
    v x = (t.settle c).get x :=
  eq_foldl_evalGate c.wellFormed.sorted hLeaf hGate x

/-- The variables without a definition do not matter. -/
theorem eq_settle_of_named {v : Nat → Bool} {t : Table Bool}
    (hLeaf : ∀ x ∈ c.named, x ∉ c.gates.map Gate.var → v x = t.get x)
    (hGate : ∀ g ∈ c.gates, signalValue v g.out = (signalValue v g.left && signalValue v g.right)) :
    ∀ x ∈ c.named, v x = (t.settle c).get x := by
  obtain ⟨w, hw⟩ : ∃ w : Nat → Bool,
      w = fun x => if x ∈ c.gates.map Gate.var then v x else t.get x := ⟨_, rfl⟩
  have hNamed : ∀ x ∈ c.named, v x = w x := by
    intro x hx
    rw [hw]
    dsimp only
    split
    · rfl
    · rename_i hNot
      exact hLeaf x hx hNot
  have hUsed : ∀ s ∈ c.uses, signalValue v s = signalValue w s := by
    intro s hs
    rw [signalValue, signalValue, hNamed _ (c.mem_named_of_uses hs)]
  have hSettle : ∀ x, w x = (t.settle c).get x := by
    refine eq_settle c (fun x hx => ?_) fun g hg => ?_
    · rw [hw]
      exact if_neg hx
    · rw [← hUsed _ (c.fanin_mem_uses hg (.inl rfl)), ← hUsed _ (c.fanin_mem_uses hg (.inr rfl)),
        ← hGate g hg, signalValue_of_plain (c.gate_plain hg)]
      exact (hNamed _ (c.mem_named_of_gates hg)).symm
  exact fun x hx => (hNamed x hx).trans (hSettle x)

/-- Tables that agree apart from the gates agree everywhere once these are evaluated. -/
theorem settle_congr {t t' : Table Bool}
    (h : ∀ x, x ∉ c.gates.map Gate.var → t.get x = t'.get x) (x : Nat) :
    (t.settle c).get x = (t'.settle c).get x := by
  refine eq_settle c (fun y hy => ?_) (fun g hg => ?_) x
  · rw [← h y hy]
    exact get_foldl_evalGate_of_notMem hy t
  · rw [settle_consistent c t g hg, read_eq_signalValue, read_eq_signalValue]

end Table

end SoftError

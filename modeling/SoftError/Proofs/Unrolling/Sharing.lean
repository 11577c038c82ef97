import SoftError.Proofs.Encoding.Remembered
import SoftError.Proofs.Unrolling.Ensemble

/-!
# Sharing equal cones

Unrollings of one circuit on an encoder with a cache share what they have in common. A gate gets
the literal that it had in an earlier step if the leaves of its cone hold the same literals
again, whatever was encoded in between. If all leaves do, the whole step is free of charge. The
constant is a leaf like the others: its value is low unless it has been overwritten.
-/

namespace SoftError

namespace Circuit

variable (c : Circuit)

/-- The gate of `v` reads `w`. -/
def Fanin (v w : Nat) : Prop := ∃ g ∈ c.gates, g.var = v ∧ (g.left.var = w ∨ g.right.var = w)

/-- The value of `v` is computed from that of `w`, among others. -/
def Cone (v w : Nat) : Prop := Relation.ReflTransGen c.Fanin v w

/-- A variable that no gate computes. -/
def Leaf (v : Nat) : Prop :=
  v = 0 ∨ v ∈ c.inputs.map Signal.var ∨ v ∈ c.latches.map fun l => l.signal.var

variable {c}

theorem leaf_of_named {v : Nat} (h : v ∈ c.named) (hGate : v ∉ c.gates.map Gate.var) :
    c.Leaf v := by
  obtain hZero | hInput | hLatch | hMem := c.mem_named_iff.mp h
  · exact .inl hZero
  · exact .inr (.inl hInput)
  · exact .inr (.inr hLatch)
  · exact absurd hMem hGate

theorem Cone.mem {S : List Nat} {v w : Nat} (h : c.Cone v w)
    (hClosed : ∀ g ∈ c.gates, g.var ∈ S → g.left.var ∈ S ∧ g.right.var ∈ S) (hv : v ∈ S) :
    w ∈ S := by
  induction h with
  | refl => exact hv
  | tail _ hFanin ih =>
    obtain ⟨g, hg, rfl, rfl | rfl⟩ := hFanin
    · exact (hClosed g hg ih).1
    · exact (hClosed g hg ih).2

end Circuit

namespace Unrolling

variable {c : Circuit} {u u' : Unrolling} {T T' : Table Lit} {e e' : Encoder}

/-- The leaves in the cone of a variable hold the same literals in both unrollings. -/
def SameLeaves (c : Circuit) (u u' : Unrolling) (v : Nat) : Prop :=
  ∀ w, c.Cone v w → c.Leaf w → u.table.get w = u'.table.get w

theorem keeps_gates (gates : List Gate) (T : Table Lit) (e : Encoder) :
    e.Keeps (gates.foldl evalGate (T, e)).2 := by
  induction gates generalizing T e with
  | nil => exact .refl e
  | cons g gates ih => exact (e.keeps_and _ _).trans (ih _ _)

theorem keeps_move (m : Move) (u : Unrolling) (e : Encoder) : e.Keeps (m.apply c u e).2 := by
  cases m with
  | reset | latch _ _ | advance => exact .refl e
  | levels vs =>
    have hCache := congrArg Encoder.cache (encoder_levelLits e (vs.take c.inputs.length))
    exact .of_cache_eq hCache
  | openInputs | openState => exact .of_cache_eq rfl
  | step => exact keeps_gates c.gates u.table e

/-- A gate whose fanins hold the same literals again is not encoded again. -/
theorem evalGate_eq_of_keeps {g : Gate} (hCache : e.cache.isSome = true)
    (h : (evalGate (T, e) g).2.Keeps e') (hLeft : T.get g.left.var = T'.get g.left.var)
    (hRight : T.get g.right.var = T'.get g.right.var) :
    evalGate (T', e') g = (T'.set g.var ((evalGate (T, e) g).1.get g.var), e') := by
  have hReads : T'.read g.left = T.read g.left ∧ T'.read g.right = T.read g.right := by
    simp only [Table.read, hLeft, hRight, and_self]
  have hAnd : e'.and (T.read g.left) (T.read g.right) =
      ((e.and (T.read g.left) (T.read g.right)).1, e') := Encoder.and_eq_of_keeps hCache h
  have hGet : (evalGate (T, e) g).1.get g.var = (e.and (T.read g.left) (T.read g.right)).1 :=
    (Table.get_set T g.var g.var _).trans (if_pos rfl)
  rw [hGet, evalGate, hReads.1, hReads.2, hAnd]

/-- The variables in `S` hold the same literals after the gates if they did before, where no
gate in `S` reads anything else. The gates are in order, so the fanins of the first one are not
written any more. -/
theorem foldl_evalGate_eq {S : Set Nat} {gates : List Gate} (hSorted : Netlist.Sorted gates)
    (hClosed : ∀ g ∈ gates, g.var ∈ S → g.left.var ∈ S ∧ g.right.var ∈ S)
    (hCache : e.cache.isSome = true) (hKeeps : (gates.foldl evalGate (T, e)).2.Keeps e')
    (hSame : ∀ v ∈ S, v ∉ gates.map Gate.var → T.get v = T'.get v) :
    (∀ v ∈ S, (gates.foldl evalGate (T, e)).1.get v = (gates.foldl evalGate (T', e')).1.get v) ∧
      ((∀ g ∈ gates, g.var ∈ S) → (gates.foldl evalGate (T', e')).2 = e') := by
  induction gates generalizing T T' e e' with
  | nil => exact ⟨fun v hv => hSame v hv List.not_mem_nil, fun _ => rfl⟩
  | cons g gates ih =>
    obtain ⟨hReads, hSorted⟩ := hSorted
    obtain ⟨hGate, hClosed⟩ := List.forall_mem_cons.mp hClosed
    have hFirst : (evalGate (T, e) g).2.Keeps e' := (keeps_gates gates _ _).trans hKeeps
    have hFanin : ∀ v ∈ S, (∀ d ∈ g :: gates, v ≠ d.var) → T.get v = T'.get v := by
      intro v hv hNe
      refine hSame v hv fun hMem => ?_
      obtain ⟨d, hd, hVar⟩ := List.mem_map.mp hMem
      exact hNe d hd hVar.symm
    have hEval : g.var ∈ S →
        evalGate (T', e') g = (T'.set g.var ((evalGate (T, e) g).1.get g.var), e') := by
      intro hg
      exact evalGate_eq_of_keeps hCache hFirst
        (hFanin _ (hGate hg).1 fun d hd => (hReads d hd).1)
        (hFanin _ (hGate hg).2 fun d hd => (hReads d hd).2)
    -- the tables still agree on what the later gates do not write
    have hNext : ∀ v ∈ S, v ∉ gates.map Gate.var →
        (evalGate (T, e) g).1.get v = (evalGate (T', e') g).1.get v := by
      intro v hv hNot
      by_cases hVar : g.var = v
      · subst hVar
        rw [hEval hv, Table.get_set, if_pos rfl]
      · change (T.set g.var _).get v = (T'.set g.var _).get v
        rw [Table.get_set, Table.get_set, if_neg hVar, if_neg hVar]
        refine hSame v hv fun hMem => ?_
        obtain hEq | hMem := List.mem_cons.mp hMem
        · exact hVar hEq.symm
        · exact hNot hMem
    have hLater : (gates.foldl evalGate (evalGate (T, e) g)).2.Keeps (evalGate (T', e') g).2 :=
      hKeeps.trans (keeps_gates [g] T' e')
    obtain ⟨hLits, hIdle⟩ := ih hSorted hClosed ((e.keeps_and _ _).caching hCache) hLater hNext
    refine ⟨hLits, fun hAll => ?_⟩
    obtain ⟨hg, hGates⟩ := List.forall_mem_cons.mp hAll
    rw [List.foldl_cons, hIdle hGates, hEval hg]

/-- The variables whose cones have the same leaves in both unrollings. -/
def alike (c : Circuit) (u u' : Unrolling) : Set Nat := {v | v ∈ c.named ∧ SameLeaves c u u' v}

theorem fanins_alike {g : Gate} (hg : g ∈ c.gates) (h : g.var ∈ alike c u u') :
    g.left.var ∈ alike c u u' ∧ g.right.var ∈ alike c u u' := by
  refine ⟨⟨c.mem_named_of_uses (c.fanin_mem_uses hg (.inl rfl)), fun w hCone => ?_⟩,
    ⟨c.mem_named_of_uses (c.fanin_mem_uses hg (.inr rfl)), fun w hCone => ?_⟩⟩
  · exact h.2 w (.head ⟨g, hg, rfl, .inl rfl⟩ hCone)
  · exact h.2 w (.head ⟨g, hg, rfl, .inr rfl⟩ hCone)

/-- A later step gives a gate the same literal if the leaves of its cone hold the same. -/
theorem step_eq_of_keeps (hCache : e.cache.isSome = true) (hKeeps : (u.step c e).2.Keeps e')
    (u' : Unrolling) :
    (∀ g ∈ c.gates, SameLeaves c u u' g.var →
      (u.step c e).1.table.get g.var = (u'.step c e').1.table.get g.var) ∧
    ((∀ w, c.Leaf w → u.table.get w = u'.table.get w) → (u'.step c e').2 = e') := by
  have hLeaves : ∀ v ∈ alike c u u', v ∉ c.gates.map Gate.var →
      u.table.get v = u'.table.get v := fun v hv hGate =>
    hv.2 v .refl (Circuit.leaf_of_named hv.1 hGate)
  obtain ⟨hLits, hIdle⟩ := foldl_evalGate_eq c.wellFormed.sorted
    (fun _ hg hAlike => fanins_alike hg hAlike) hCache hKeeps hLeaves
  exact ⟨fun g hg hSame => hLits g.var ⟨c.mem_named_of_gates hg, hSame⟩,
    fun hAll => hIdle fun g hg => ⟨c.mem_named_of_gates hg, fun w _ => hAll w⟩⟩

theorem get_zero_move (m : Move) (u : Unrolling) (e : Encoder) :
    (m.apply c u e).1.table.get 0 = u.table.get 0 := by
  cases m with
  | reset | openState | advance =>
    exact Table.get_setLatches_of_notMem c.zero_notMem_latches _ _
  | levels vs | openInputs => exact Table.get_setAll_of_notMem c.zero_notMem_inputs _ _
  | latch index l =>
    change (u.setLatch c index l).table.get 0 = _
    rw [table_setLatch_getD, Table.setLatch?]
    cases hLatch : c.latches[index]? with
    | none => rfl
    | some latch =>
      have hNe : latch.signal.var ≠ 0 :=
        c.wellFormed.var_ne_zero _ (c.latch_mem_definitions (List.mem_of_getElem? hLatch))
      rw [Option.map_some, Option.getD_some, Table.get_set, if_neg hNe]
  | step => exact get_foldl_evalGate_of_notMem c.zero_notMem_gates _

end Unrolling

open Unrolling (Move)

/-- Unrollings of several circuits and an encoder in common, of which nothing is assumed. -/
structure SharedRuns (ι : Type) where
  encoder : Encoder
  unrollings : ι → Unrolling

namespace SharedRuns

inductive Act (ι : Type) where
  | encode (op : Encoder.Operation)
  | move (i : ι) (m : Move)
  | inputs (i : ι) (ls : List Lit)
  | state (i : ι) (ls : List Lit)
  | overwrite (i : ι) (v : Nat) (l : Lit)
  | copy (source target : ι)

namespace Act

variable {ι : Type}

def forgets : Act ι → Bool
  | encode op => op.forgets
  | _ => false

/-- The value of the constant is overwritten. -/
def spoils : Act ι → Bool
  | overwrite _ v _ => v == 0
  | _ => false

end Act

variable {ι : Type} [DecidableEq ι] (c : ι → Circuit)

def put (s : SharedRuns ι) (i : ι) (u : Unrolling) : SharedRuns ι :=
  { s with unrollings := Function.update s.unrollings i u }

def perform (s : SharedRuns ι) : Act ι → SharedRuns ι
  | .encode op => { s with encoder := op.apply s.encoder }
  | .move i m =>
    let r := m.apply (c i) (s.unrollings i) s.encoder
    { s with encoder := r.2 }.put i r.1
  | .inputs i ls => s.put i ((s.unrollings i).setInputs (c i) ls)
  | .state i ls => s.put i ((s.unrollings i).setState (c i) ls)
  | .overwrite i v l =>
    s.put i { s.unrollings i with table := (s.unrollings i).table.set v l }
  | .copy source target => s.put target (s.unrollings source)

def run (acts : List (Act ι)) (s : SharedRuns ι) : SharedRuns ι := acts.foldl (perform c) s

/-- All unrollings at the start, on an encoder that remembers conjunctions. -/
def initial : SharedRuns ι := ⟨.caching, fun i => .initial (c i)⟩

variable {c} {s : SharedRuns ι}

theorem keeps_perform {a : Act ι} (h : a.forgets = false) (s : SharedRuns ι) :
    s.encoder.Keeps (s.perform c a).encoder := by
  cases a with
  | encode op => exact op.keeps_apply h s.encoder
  | move i m => exact Unrolling.keeps_move m _ _
  | inputs _ _ | state _ _ | overwrite _ _ _ | copy _ _ => exact .refl _

theorem keeps_run {acts : List (Act ι)} (h : ∀ a ∈ acts, a.forgets = false) (s : SharedRuns ι) :
    s.encoder.Keeps (s.run c acts).encoder := by
  induction acts generalizing s with
  | nil => exact .refl _
  | cons a acts ih =>
    obtain ⟨hFirst, hRest⟩ := List.forall_mem_cons.mp h
    exact (keeps_perform hFirst s).trans (ih hRest _)

theorem isSome_cache_run (acts : List (Act ι)) (h : s.encoder.cache.isSome = true) :
    (s.run c acts).encoder.cache.isSome = true := by
  induction acts generalizing s with
  | nil => exact h
  | cons a acts ih =>
    apply ih
    cases a with
    | encode op => exact op.isSome_cache_apply h
    | move i m => exact (Unrolling.keeps_move m _ _).caching h
    | inputs _ _ | state _ _ | overwrite _ _ _ | copy _ _ => exact h

/-- The constant is low in every unrolling. -/
def Grounded (s : SharedRuns ι) : Prop := ∀ i, (s.unrollings i).table.get 0 = .bot

theorem Grounded.put (h : s.Grounded) (i : ι) {u : Unrolling} (hu : u.table.get 0 = .bot) :
    (s.put i u).Grounded := by
  intro j
  change (Function.update s.unrollings i u j).table.get 0 = .bot
  by_cases hj : j = i
  · rw [hj, Function.update_self, hu]
  · rw [Function.update_of_ne hj, h j]

theorem Grounded.perform (h : s.Grounded) {a : Act ι} (ha : a.spoils = false) :
    (s.perform c a).Grounded := by
  cases a with
  | encode op => exact h
  | move i m => exact h.put i ((Unrolling.get_zero_move m _ s.encoder).trans (h i))
  | inputs i ls =>
    exact h.put i ((Table.get_setAll_of_notMem (c i).zero_notMem_inputs _ _).trans (h i))
  | state i ls =>
    exact h.put i ((Table.get_setLatches_of_notMem (c i).zero_notMem_latches _ _).trans (h i))
  | overwrite i v l =>
    have hv : v ≠ 0 := beq_eq_false_iff_ne.mp ha
    exact h.put i (((Table.get_set _ v 0 l).trans (if_neg hv)).trans (h i))
  | copy i j => exact h.put j (h i)

theorem Grounded.run (h : s.Grounded) {acts : List (Act ι)}
    (hActs : ∀ a ∈ acts, a.spoils = false) : (s.run c acts).Grounded := by
  induction acts generalizing s with
  | nil => exact h
  | cons a acts ih =>
    obtain ⟨hFirst, hRest⟩ := List.forall_mem_cons.mp hActs
    exact ih (h.perform hFirst) hRest

omit [DecidableEq ι] in
theorem grounded_initial (c : ι → Circuit) : (initial c).Grounded := fun i =>
  (Table.get_setLatches_of_notMem (c i).zero_notMem_latches _ _).trans (Table.get_blankUpTo _ _ 0)

/-- A gate has the literal of an earlier step again if the leaves of its cone have. If all leaves
have, the step leaves the encoder as it is. The constant counts as a leaf, but differs only if it
was overwritten. -/
theorem equal_cones_share_literals (c : ι → Circuit) {i j : ι} (hCircuit : c j = c i)
    {past between : List (Act ι)} {s s₁ s₂ s₃ : SharedRuns ι}
    (hPast : (initial c).run c past = s) (hFirst : s.perform c (.move i .step) = s₁)
    (hBetween : s₁.run c between = s₂) (hKept : ∀ a ∈ between, a.forgets = false)
    (hSecond : s₂.perform c (.move j .step) = s₃) :
    (∀ g ∈ (c i).gates, Unrolling.SameLeaves (c i) (s.unrollings i) (s₂.unrollings j) g.var →
      (s₁.unrollings i).table.get g.var = (s₃.unrollings j).table.get g.var) ∧
    ((∀ v, (c i).Leaf v → (s.unrollings i).table.get v = (s₂.unrollings j).table.get v) →
      s₃.encoder = s₂.encoder) ∧
    ((∀ a ∈ past ++ between, a.spoils = false) →
      (s.unrollings i).table.get 0 = .bot ∧ (s₂.unrollings j).table.get 0 = .bot) := by
  have hCache : s.encoder.cache.isSome = true := hPast ▸ isSome_cache_run past rfl
  have hKeeps : s₁.encoder.Keeps s₂.encoder := hBetween ▸ keeps_run hKept s₁
  have hStep : s₁.encoder = ((s.unrollings i).step (c i) s.encoder).2 ∧
      s₁.unrollings i = ((s.unrollings i).step (c i) s.encoder).1 := by
    subst hFirst
    exact ⟨rfl, Function.update_self ..⟩
  have hAgain : s₃.encoder = ((s₂.unrollings j).step (c i) s₂.encoder).2 ∧
      s₃.unrollings j = ((s₂.unrollings j).step (c i) s₂.encoder).1 := by
    subst hSecond
    rw [← hCircuit]
    exact ⟨rfl, Function.update_self ..⟩
  rw [hStep.1] at hKeeps
  rw [hStep.2, hAgain.1, hAgain.2]
  obtain ⟨hGates, hIdle⟩ := Unrolling.step_eq_of_keeps hCache hKeeps (s₂.unrollings j)
  refine ⟨hGates, hIdle, fun hSpoils => ?_⟩
  obtain ⟨hBefore, hAfter⟩ := List.forall_mem_append.mp hSpoils
  have hGrounded : s.Grounded := hPast ▸ (grounded_initial c).run hBefore
  refine ⟨hGrounded i, ?_⟩
  rw [← hBetween, ← hFirst]
  exact (hGrounded.perform rfl).run hAfter j

/-- The first gate reads the inputs, the second one the first and the latch. -/
def guarded : Circuit where
  maxVar := 5
  inputs := [⟨2⟩, ⟨4⟩]
  latches := [⟨⟨6⟩, ⟨10⟩, none⟩]
  outputs := [⟨10⟩]
  gates := [⟨⟨8⟩, ⟨2⟩, ⟨5⟩⟩, ⟨⟨10⟩, ⟨9⟩, ⟨6⟩⟩]
  wellFormed := ⟨by decide, by decide, by decide, by decide, by decide, by decide,
    ⟨by decide, by decide, trivial⟩⟩

def guardedRuns : Bool → Circuit := fun _ => guarded

def guardedPast : List (Act Bool) := [.move true .openInputs, .move true .openState]

/-- The other unrolling gets the same inputs and another state. -/
def guardedBetween : List (Act Bool) :=
  [.encode (.call .take), .encode (.call (.xor 2 3)), .inputs false [2, 3],
    .encode (.atMostOne [2, 3, 4]), .state false [3]]

theorem guardedRuns_share :
    ∃ s s₁ s₂ s₃ : SharedRuns Bool,
      (initial guardedRuns).run guardedRuns guardedPast = s ∧
      s.perform guardedRuns (.move true .step) = s₁ ∧
      s₁.run guardedRuns guardedBetween = s₂ ∧
      s₂.perform guardedRuns (.move false .step) = s₃ ∧
      (s₁.unrollings true).table.get 4 = (s₃.unrollings false).table.get 4 ∧
      (s₁.unrollings true).table.get 5 ≠ (s₃.unrollings false).table.get 5 := by
  refine ⟨_, _, _, _, rfl, rfl, rfl, rfl, ?_, by decide +kernel⟩
  have hKept : ∀ a ∈ guardedBetween, a.forgets = false := by decide
  obtain ⟨hGates, -, -⟩ := equal_cones_share_literals guardedRuns (i := true) (j := false) rfl
    (show (initial guardedRuns).run guardedRuns guardedPast = _ from rfl) rfl rfl hKept rfl
  refine hGates ⟨⟨8⟩, ⟨2⟩, ⟨5⟩⟩ (by decide) fun w hCone _ => ?_
  have hMem : w ∈ [4, 1, 2] := hCone.mem (by decide) (by decide)
  have hSame : ∀ w ∈ [4, 1, 2],
      (((initial guardedRuns).run guardedRuns guardedPast).unrollings true).table.get w =
        (((((initial guardedRuns).run guardedRuns guardedPast).perform guardedRuns
          (.move true .step)).run guardedRuns guardedBetween).unrollings false).table.get w := by
    decide +kernel
  exact hSame w hMem

end SharedRuns

end SoftError

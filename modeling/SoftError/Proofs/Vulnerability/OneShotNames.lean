import Mathlib.Data.List.Zip
import SoftError.Proofs.Encoding.Encoder
import SoftError.Proofs.Encoding.Transition
import SoftError.Proofs.Stimulus.Admits
import SoftError.Proofs.Unrolling.Alarms
import SoftError.Vulnerability.OneShot

/-!
# Names of a step

Each step of the faulty run is a copy of the transition relation under new names. Read through
these names, the assignments that satisfy the copy are the models of the relation in which
definite inputs have their values. The names are new, so every such model has an assignment.
-/

namespace SoftError.Vulnerability.OneShot

theorem pairwise_compare {β : Type} {ps : List (Nat × β)} (h : (ps.map Prod.fst).Nodup) :
    ps.Pairwise fun p q => ¬ compare p.1 q.1 = .eq := by
  refine (List.pairwise_map.mp h).imp fun hNe hEq => hNe ?_
  exact Std.LawfulEqOrd.eq_of_compare hEq

theorem getElem?_ofList {β : Type} {ps : List (Nat × β)} (h : (ps.map Prod.fst).Nodup) {v : Nat}
    {x : β} : (Std.TreeMap.ofList ps compare)[v]? = some x ↔ (v, x) ∈ ps := by
  constructor
  · intro hGet
    by_cases hMem : v ∈ ps.map Prod.fst
    · obtain ⟨⟨w, y⟩, hp, rfl⟩ := List.mem_map.mp hMem
      rw [Std.TreeMap.getElem?_ofList_of_mem Std.ReflCmp.compare_self (pairwise_compare h) hp]
        at hGet
      exact Option.some.inj hGet ▸ hp
    · rw [Std.TreeMap.getElem?_ofList_of_contains_eq_false (by simpa using hMem)] at hGet
      cases hGet
  · exact Std.TreeMap.getElem?_ofList_of_mem Std.ReflCmp.compare_self (pairwise_compare h)

namespace Names

variable {n : Names} {ρ : Assignment} {vs : List Nat} {l : Lit}

/-- The values of the relation's variables in a step. -/
def pull (n : Names) (ρ : Assignment) : Assignment := fun v =>
  (n.values.get? v).getD (ρ (n.target v))

theorem holds_lit (hρ : ρ ∈ pinned) (h : n.target l.var ≠ 0) :
    (n.lit l).holds ρ = l.holds (n.pull ρ) := by
  rw [lit]
  split
  · rename_i b hValue
    rw [holds_ofBool hρ, Lit.holds, pull, hValue]
    rfl
  · rename_i hNone
    rw [Cnf.holds_renameLit h]
    apply Lit.holds_congr
    rw [pull, hNone]
    rfl

theorem var_lit_lt {m : Nat} (hm : 2 ≤ m) (h : n.target l.var ≠ 0) (hl : n.target l.var < m) :
    (n.lit l).var < m := by
  rw [lit]
  split
  · rename_i b _
    cases l.eval b <;> exact hm
  · rwa [Cnf.var_renameLit h]

/-- The given variables have different new names. -/
structure Proper (n : Names) (vs : List Nat) : Prop where
  ne_zero : ∀ v ∈ vs, n.target v ≠ 0
  inj : ∀ v ∈ vs, ∀ w ∈ vs, n.target v = n.target w → v = w
  values : ∀ v b, n.values.get? v = some b → v ∈ vs

theorem proper_ofList {ps : List (Nat × Nat)} {qs : List (Nat × Bool)}
    (hKeys : (ps.map Prod.fst).Nodup) (hNames : (ps.map Prod.snd).Nodup)
    (hZero : 0 ∉ ps.map Prod.snd) (hValues : (qs.map Prod.fst).Nodup)
    (hSubset : qs.map Prod.fst ⊆ ps.map Prod.fst) :
    Proper ⟨.ofList ps, .ofList qs⟩ (ps.map Prod.fst) ∧
      ∀ p ∈ ps, target ⟨.ofList ps, .ofList qs⟩ p.1 = p.2 := by
  have hTarget : ∀ p ∈ ps, target ⟨.ofList ps, .ofList qs⟩ p.1 = p.2 := fun p hp =>
    Std.TreeMap.getD_ofList_of_mem Std.ReflCmp.compare_self (pairwise_compare hKeys) hp
  refine ⟨⟨fun v hv => ?_, fun v hv w hw hEq => ?_, fun v b hValue => hSubset ?_⟩, hTarget⟩
  · obtain ⟨p, hp, rfl⟩ := List.mem_map.mp hv
    rw [hTarget p hp]
    exact fun hEq => hZero (hEq ▸ List.mem_map_of_mem hp)
  · obtain ⟨p, hp, rfl⟩ := List.mem_map.mp hv
    obtain ⟨q, hq, rfl⟩ := List.mem_map.mp hw
    rw [hTarget p hp, hTarget q hq] at hEq
    rw [List.inj_on_of_nodup_map hNames hp hq hEq]
  · exact List.mem_map_of_mem (f := Prod.fst) ((getElem?_ofList hValues).mp hValue)

section Copy

variable {f g relation : Cnf} {ps : List (Nat × Bool)}

theorem mem_models_assumeVar {v : Nat} (hv : v ≠ 0) {b : Bool} :
    ρ ∈ (copy.assumeVar v b f).models ↔ Function.update ρ v b ∈ f.models := by
  rw [copy.assumeVar, Lit.ofVar?, dif_neg hv, Cnf.mem_models_assume, Lit.var_withSign,
    Lit.positive_withSign, Lit.var_ofVar]

/-- Values that are assumed one after the other are assumed together. -/
theorem exists_foldl_assumeVar (hNodup : (ps.map fun p => n.target p.1).Nodup)
    (hZero : ∀ p ∈ ps, n.target p.1 ≠ 0) (ρ : Assignment) :
    ∃ ρ', (∀ w ∉ ps.map (fun p => n.target p.1), ρ' w = ρ w) ∧
      (∀ p ∈ ps, ρ' (n.target p.1) = p.2) ∧
      ∀ f : Cnf, ρ ∈ Cnf.models (ps.foldl (fun f (v, b) => copy.assumeVar (n.target v) b f) f) ↔
        ρ' ∈ f.models := by
  induction ps with
  | nil => exact ⟨ρ, fun _ _ => rfl, List.forall_mem_nil _, fun _ => Iff.rfl⟩
  | cons p ps ih =>
    rw [List.map_cons, List.nodup_cons] at hNodup
    obtain ⟨hHead, hZero⟩ := List.forall_mem_cons.mp hZero
    obtain ⟨ρ', hSame, hAssumed, hModels⟩ := ih hNodup.2 hZero
    refine ⟨Function.update ρ' (n.target p.1) p.2, fun w hw => ?_, ?_, fun f => ?_⟩
    · rw [List.map_cons, List.mem_cons, not_or] at hw
      rw [Function.update_of_ne hw.1, hSame w hw.2]
    · refine List.forall_mem_cons.mpr ⟨Function.update_self _ _ _, fun q hq => ?_⟩
      have hNe : n.target q.1 ≠ n.target p.1 := fun hEq =>
        hNodup.1 (hEq ▸ List.mem_map_of_mem (f := fun p => n.target p.1) hq)
      rw [Function.update_of_ne hNe, hAssumed q hq]
    · exact (hModels _).trans (mem_models_assumeVar hHead)

theorem mem_flatten_of_foldl_assumeVar
    (h : l ∈ List.flatten (ps.foldl (fun f (v, b) => copy.assumeVar (n.target v) b f) f)) :
    l ∈ f.flatten := by
  induction ps generalizing f with
  | nil => exact h
  | cons p ps ih =>
    have hl : l ∈ (copy.assumeVar (n.target p.1) p.2 f).flatten := ih h
    rw [copy.assumeVar] at hl
    split at hl
    · exact hl
    · exact Cnf.mem_flatten_of_mem_assume hl

theorem mem_toList_values {v : Nat} {b : Bool} :
    (v, b) ∈ n.values.toList ↔ n.values.get? v = some b :=
  Std.TreeMap.mem_toList_iff_getElem?_eq_some

theorem copy_eq_ok (h : n.copy relation = .ok f) : ∃ g, relation.rename n.target = .ok g ∧
    f = n.values.toList.foldl (fun f (v, b) => copy.assumeVar (n.target v) b f) g := by
  rw [copy] at h
  split at h
  · cases h
  · rename_i g hRename
    exact ⟨g, hRename, (Except.ok.inj h).symm⟩

theorem Proper.exists_copy (h : n.Proper vs) (hRelation : ∀ l ∈ relation.flatten, l.var ∈ vs) :
    ∃ f, n.copy relation = .ok f := by
  rw [copy, Cnf.rename_of_named fun l hl => h.ne_zero _ (hRelation l hl)]
  exact ⟨_, rfl⟩

/-- The copy says of the new names what the relation says of its variables. -/
theorem Proper.mem_models_copy (h : n.Proper vs) (hRelation : ∀ l ∈ relation.flatten, l.var ∈ vs)
    (hCopy : n.copy relation = .ok f) : ρ ∈ f.models ↔ n.pull ρ ∈ relation.models := by
  obtain ⟨g, hRename, rfl⟩ := copy_eq_ok hCopy
  have hMem : ∀ p ∈ n.values.toList, p.1 ∈ vs := fun p hp =>
    h.values _ _ (mem_toList_values.mp hp)
  have hNodup : (n.values.toList.map fun p => n.target p.1).Nodup := by
    refine List.pairwise_map.mpr (Std.TreeMap.distinct_keys_toList.imp_of_mem ?_)
    intro p q hp hq hNe hEq
    exact hNe (h.inj _ (hMem p hp) _ (hMem q hq) hEq ▸ Std.ReflCmp.compare_self)
  obtain ⟨ρ', hSame, hAssumed, hModels⟩ :=
    exists_foldl_assumeVar hNodup (fun p hp => h.ne_zero _ (hMem p hp)) ρ
  rw [hModels, Cnf.mem_models_rename hRename]
  refine Cnf.mem_models_congr fun c hc l hl => ?_
  have hl := hRelation l (List.mem_flatten.mpr ⟨c, hc, hl⟩)
  rw [pull]
  cases hValue : n.values.get? l.var with
  | some b => exact hAssumed _ (mem_toList_values.mpr hValue)
  | none =>
    refine hSame _ fun hTarget => ?_
    obtain ⟨p, hp, hEq⟩ := List.mem_map.mp hTarget
    have hGet := mem_toList_values.mp hp
    rw [h.inj _ (hMem p hp) _ hl hEq, hValue] at hGet
    cases hGet

theorem copy_below {m : Nat} (hRelation : ∀ l ∈ relation.flatten, n.target l.var < m)
    (hCopy : n.copy relation = .ok f) : f.Below m := by
  obtain ⟨g, hRename, rfl⟩ := copy_eq_ok hCopy
  obtain ⟨hNamed, rfl⟩ := Cnf.rename_eq_ok hRename
  intro c hc l hl
  have hMem := mem_flatten_of_foldl_assumeVar (List.mem_flatten.mpr ⟨c, hc, hl⟩)
  rw [← List.map_flatten] at hMem
  obtain ⟨k, hk, rfl⟩ := List.mem_map.mp hMem
  rw [Cnf.var_renameLit (hNamed k hk)]
  exact hRelation k hk

end Copy

theorem Proper.congr (h : n.Proper vs) {ws : List Nat} (hMem : ∀ v, v ∈ ws ↔ v ∈ vs) :
    n.Proper ws :=
  ⟨fun v hv => h.ne_zero v ((hMem v).mp hv),
    fun v hv w hw => h.inj v ((hMem v).mp hv) w ((hMem w).mp hw),
    fun v b hValue => (hMem v).mpr (h.values v b hValue)⟩

end Names

/-- Ascending variables from an interval. -/
structure Within (lo hi : Nat) (vs : List Nat) : Prop where
  ascending : vs.Pairwise (· < ·)
  bounds : ∀ v ∈ vs, lo ≤ v ∧ v < hi

theorem Within.append {a b d : Nat} {vs ws : List Nat} (h : Within a b vs) (h' : Within b d ws)
    (hab : a ≤ b) (hbd : b ≤ d) : Within a d (vs ++ ws) := by
  refine ⟨List.pairwise_append.mpr ⟨h.ascending, h'.ascending, fun v hv w hw => ?_⟩, ?_⟩
  · have := h.bounds v hv
    have := h'.bounds w hw
    omega
  · rw [List.forall_mem_append]
    exact ⟨fun v hv => ⟨(h.bounds v hv).1, lt_of_lt_of_le (h.bounds v hv).2 hbd⟩,
      fun w hw => ⟨hab.trans (h'.bounds w hw).1, (h'.bounds w hw).2⟩⟩

theorem Within.mono {a b a' : Nat} {vs : List Nat} (h : Within a b vs) (ha : a' ≤ a) :
    Within a' b vs :=
  ⟨h.ascending, fun v hv => ⟨ha.trans (h.bounds v hv).1, (h.bounds v hv).2⟩⟩

theorem within_freshList (e : Encoder) (n : Nat) :
    Within e.nextVar (e.freshList n).2.nextVar ((e.freshList n).1.map Lit.var) := by
  have hVars : (e.freshList n).1.map Lit.var = List.range' e.nextVar n := e.pool.map_var_freshList n
  have hNext : (e.freshList n).2.nextVar = e.nextVar + n := e.pool.next_freshList n
  rw [hVars, hNext]
  exact ⟨List.pairwise_lt_range', fun v hv => by rwa [List.mem_range'_1] at hv⟩

/-- The given variables, each with a new name. -/
theorem map_zip_freshList {α : Type} (e : Encoder) (xs : List α) (key : α → Nat) :
    ((xs.zip (e.freshList xs.length).1).map fun p => (key p.1, p.2.var)).map Prod.fst =
        xs.map key ∧
      Within e.nextVar (e.freshList xs.length).2.nextVar
        (((xs.zip (e.freshList xs.length).1).map fun p => (key p.1, p.2.var)).map Prod.snd) := by
  have hLength : (e.freshList xs.length).1.length = xs.length := e.pool.length_freshList xs.length
  have hFst := congrArg (List.map key) (List.map_fst_zip hLength.ge)
  have hSnd := congrArg (List.map Lit.var) (List.map_snd_zip hLength.le)
  rw [List.map_map] at hFst hSnd
  rw [List.map_map, List.map_map]
  exact ⟨hFst, hSnd ▸ within_freshList e xs.length⟩

/-- Different names can have any values. -/
theorem exists_values {ps : List (Nat × Nat)} (hNodup : (ps.map Prod.snd).Nodup) {m : Nat}
    (hLe : ∀ p ∈ ps, m ≤ p.2) (ρ v : Assignment) :
    ∃ ρ', AgreeBelow m ρ ρ' ∧ ∀ p ∈ ps, ρ' p.2 = v p.1 := by
  induction ps with
  | nil => exact ⟨ρ, .refl _ _, List.forall_mem_nil _⟩
  | cons p ps ih =>
    rw [List.map_cons, List.nodup_cons] at hNodup
    obtain ⟨hHead, hLe⟩ := List.forall_mem_cons.mp hLe
    obtain ⟨ρ', hAgree, hValues⟩ := ih hNodup.2 hLe
    refine ⟨Function.update ρ' p.2 (v p.1), hAgree.trans ((AgreeBelow.update _ ρ' _).mono hHead),
      List.forall_mem_cons.mpr ⟨Function.update_self _ _ _, fun q hq => ?_⟩⟩
    have hNe : q.2 ≠ p.2 := fun hEq => hNodup.1 (hEq ▸ List.mem_map_of_mem hq)
    rw [Function.update_of_ne hNe, hValues q hq]

/-- The literal of an input with the given level and name. -/
def IsLevelLit (p : Level × Nat) (l : Lit) : Prop :=
  match p.1.toBool? with
  | some b => l = .ofBool b
  | none => l.var = p.2

theorem levelLits_of_within {lo hi : Nat} {levels : List Level} {names : List Nat}
    {ls : List Lit} (hLe : lo ≤ hi) (hNames : Within lo hi names)
    (hLength : levels.length = names.length)
    (h : List.Forall₂ IsLevelLit (levels.zip names) ls) :
    Unrolling.LevelLits hi lo levels ls := by
  induction levels generalizing lo names ls with
  | nil =>
    cases h
    exact .nil hLe
  | cons v levels ih =>
    obtain _ | ⟨name, names⟩ := names
    · cases hLength
    obtain ⟨l, ls, hl, hls, rfl⟩ := List.forall₂_cons_left_iff.mp h
    obtain ⟨hAbove, hAscending⟩ := List.pairwise_cons.mp hNames.ascending
    obtain ⟨hName, hBounds⟩ := List.forall_mem_cons.mp hNames.bounds
    have hRest : levels.length = names.length := Nat.succ.inj hLength
    rw [IsLevelLit] at hl
    cases hv : v.toBool? with
    | some b =>
      rw [hv] at hl
      rw [show l = .ofBool b from hl]
      exact .definite hv (ih hLe ⟨hAscending, hBounds⟩ hRest hls)
    | none =>
      rw [hv] at hl
      obtain rfl : l.var = name := hl
      exact .free hv hName.1
        (ih hName.2 ⟨hAscending, fun w hw => ⟨hAbove w hw, (hBounds w hw).2⟩⟩ hRest hls)

section Naming

variable {M : Set Assignment} {e : Encoder} {index i : Nat} {flip : Lit}

structure LatchNames (M : Set Assignment) (e : Encoder) (index : Nat) (flip : Lit) (i : Nat)
    (pairs : List (Lit × Lit)) (r : List (Nat × Nat) × Encoder) : Prop
    extends Encoder.Extends M e r.2 where
  keys : r.1.map Prod.fst = pairs.map fun p => p.1.var
  within : Within e.nextVar r.2.nextVar (r.1.map Prod.snd)
  values : ∀ ρ ∈ r.2.models M, r.1.map (fun p => ρ p.2) =
    pairs.mapIdx fun j p => p.2.holds ρ ^^ (decide (i + j = index) && flip.holds ρ)

theorem latchNames {pairs : List (Lit × Lit)} (h : e.Valid M) (hFlip : flip.var < e.nextVar)
    (hPairs : ∀ p ∈ pairs, p.2.var < e.nextVar) (i : Nat) :
    LatchNames M e index flip i pairs (nameLatches index flip i pairs e) := by
  induction pairs generalizing e i with
  | nil => exact ⟨.refl h, rfl, ⟨.nil, List.forall_mem_nil _⟩, fun _ _ => rfl⟩
  | cons p pairs ih =>
    obtain ⟨latch, value⟩ := p
    obtain ⟨hValue, hPairs⟩ := List.forall_mem_cons.mp hPairs
    have hFlipped : Encoder.Defines M e (if i = index then e.flip value flip else (value, e))
        fun ρ => value.holds ρ ^^ (decide (i = index) && flip.holds ρ) := by
      by_cases hIndex : i = index
      · rw [if_pos hIndex]
        exact (h.flip hValue hFlip).congr fun ρ _ => by simp [hIndex]
      · rw [if_neg hIndex]
        exact h.defines_self hValue fun ρ _ => by simp [hIndex]
    obtain ⟨value', e₁, hEq⟩ : ∃ value' e₁,
        (if i = index then e.flip value flip else (value, e)) = (value', e₁) := ⟨_, _, rfl⟩
    rw [hEq] at hFlipped
    have hName := hFlipped.valid.rename hFlipped.bounded
    have hLe := hFlipped.le.trans hName.le
    have hRest := ih hName.valid (lt_of_lt_of_le hFlip hLe)
      (fun p hp => lt_of_lt_of_le (hPairs p hp) hLe) (i + 1)
    have hUnfold : nameLatches index flip i ((latch, value) :: pairs) e =
        ((latch.var, e₁.fresh.1.var) ::
          (nameLatches index flip (i + 1) pairs (e₁.fresh.2.equal e₁.fresh.1 value')).1,
          (nameLatches index flip (i + 1) pairs (e₁.fresh.2.equal e₁.fresh.1 value')).2) := by
      simp only [nameLatches, hEq]
    have hVar : e₁.fresh.1.var = e₁.nextVar := e₁.var_fresh
    have hFirst : Within e.nextVar (e₁.nextVar + 1) [e₁.nextVar] :=
      ⟨List.pairwise_singleton _ _, List.forall_mem_singleton.mpr ⟨hFlipped.le, Nat.lt_succ_self _⟩⟩
    rw [hUnfold]
    refine ⟨(hFlipped.toExtends.trans hName.toExtends).trans hRest.toExtends, ?_, ?_, ?_⟩
    · rw [List.map_cons, List.map_cons, hRest.keys]
    · rw [List.map_cons, hVar]
      exact hFirst.append hRest.within (hFlipped.le.trans (Nat.le_succ _)) hRest.le
    · intro ρ hρ
      have hHead := hName.holds ρ (hRest.subset hρ)
      rw [Encoder.holds_fresh, hFlipped.holds ρ (hName.subset (hRest.subset hρ))] at hHead
      rw [List.map_cons, List.mapIdx_cons, hRest.values ρ hρ, hVar, hHead]
      simp only [Nat.add_right_comm i 1, Nat.add_assoc]
      rfl

structure InputNames (M : Set Assignment) (e : Encoder) (inputs : List (Lit × Level))
    (r : (List (Nat × Nat) × List (Nat × Bool) × List Lit) × Encoder) : Prop
    extends Encoder.Extends M e r.2 where
  models : r.2.models M = e.models M
  keys : r.1.1.map Prod.fst = inputs.map fun p => p.1.var
  within : Within e.nextVar r.2.nextVar (r.1.1.map Prod.snd)
  definite : r.1.2.1 = inputs.filterMap fun p => p.2.toBool?.map (p.1.var, ·)
  free : ∀ p ∈ inputs, p.2 = .free → ∃ l ∈ r.1.2.2, (p.1.var, l.var) ∈ r.1.1

theorem inputNames (h : e.Valid M) (inputs : List (Lit × Level)) :
    InputNames M e inputs (nameInputs inputs e) := by
  obtain ⟨hKeys, hWithin⟩ := map_zip_freshList e inputs fun p => p.1.var
  have hFst : (inputs.zip (e.freshList inputs.length).1).map Prod.fst = inputs :=
    List.map_fst_zip (e.pool.length_freshList inputs.length).ge
  refine ⟨h.freshList_extends _, Encoder.models_freshList M e _, hKeys, hWithin, ?_,
    fun p hp hFree => ?_⟩
  · conv_rhs => rw [← hFst]
    rw [List.filterMap_map]
    rfl
  · rw [← hFst] at hp
    obtain ⟨⟨p, name⟩, hMem, rfl⟩ := List.mem_map.mp hp
    refine ⟨name, List.mem_filterMap.mpr ⟨_, hMem, if_pos hFree⟩, ?_⟩
    exact List.mem_map.mpr ⟨_, hMem, rfl⟩

theorem map_fst_filterMap_sublist (inputs : List (Lit × Level)) :
    ((inputs.filterMap fun p => p.2.toBool?.map (p.1.var, ·)).map Prod.fst).Sublist
      (inputs.map fun p => p.1.var) := by
  induction inputs with
  | nil => exact .slnil
  | cons p inputs ih =>
    cases hLevel : p.2.toBool? with
    | none =>
      rw [List.filterMap_cons_none (by rw [hLevel]; rfl), List.map_cons]
      exact ih.cons _
    | some b =>
      rw [List.filterMap_cons_some (b := (p.1.var, b)) (by rw [hLevel]; rfl), List.map_cons,
        List.map_cons]
      exact ih.cons_cons _

theorem map_var_zip {β : Type} (ls : List Lit) (xs : List β) (h : ls.length ≤ xs.length) :
    (ls.zip xs).map (fun p => p.1.var) = ls.map Lit.var := by
  conv_rhs => rw [← List.map_fst_zip h]
  rw [List.map_map]
  rfl

variable (c : Circuit)

/-- The literals of the inputs of a step. -/
def inputLits (n : Names) : List Lit := c.inputs.map fun s => n.lit s.lit

def Names.ofLists (latches inputs gates : List (Nat × Nat)) (values : List (Nat × Bool)) : Names :=
  ⟨.ofList ((1, 1) :: latches ++ inputs ++ gates), .ofList values⟩

/-- The names of the next step, with the literals of its flip and of its free inputs. -/
def naming (t : Transition) (index : Nat) (levels : List Level) (state : List Lit) (e : Encoder) :
    (Lit × Names × List Lit) × Encoder :=
  let (flip, e) := e.fresh
  let (latches, e) := nameLatches index flip 0 (t.state.zip state) e
  let ((inputs, values, opened), e) := nameInputs (t.inputs.zip levels) e
  let (gates, e) := nameGates c e
  ((flip, .ofLists latches inputs gates values, opened), e)

/-- The lists that names are made of. -/
structure Listed (latches inputs gates : List (Nat × Nat)) (values : List (Nat × Bool))
    (hi : Nat) : Prop where
  latchKeys : latches.map Prod.fst = c.latches.map fun l => l.signal.var + 1
  inputKeys : inputs.map Prod.fst = c.inputs.map fun s => s.var + 1
  gateKeys : gates.map Prod.fst = c.gates.map fun g => g.var + 1
  valueKeys : (values.map Prod.fst).Sublist (inputs.map Prod.fst)
  names : Within 2 hi ((latches ++ inputs ++ gates).map Prod.snd)

namespace Listed

variable {c} {latches inputs gates : List (Nat × Nat)} {values : List (Nat × Bool)} {hi : Nat}
  (h : Listed c latches inputs gates values hi)
include h

theorem keys_perm : (((1, 1) :: latches ++ inputs ++ gates).map Prod.fst).Perm
    (c.named.map (· + 1)) := by
  have hKeys : ((1, 1) :: latches ++ inputs ++ gates).map Prod.fst =
      (0 :: c.latches.map (fun l => l.signal.var) ++ c.inputs.map Signal.var ++
        c.gates.map Gate.var).map (· + 1) := by
    simp only [List.map_append, List.map_cons, List.map_map, h.latchKeys, h.inputKeys, h.gateKeys]
    rfl
  rw [hKeys]
  refine List.Perm.map _ ?_
  rw [Circuit.named, Netlist.definitions, List.map_append, List.map_append, List.map_map,
    List.map_map, List.cons_append, List.cons_append]
  exact (List.perm_append_comm.append_right _).cons 0

theorem keys_nodup : (((1, 1) :: latches ++ inputs ++ gates).map Prod.fst).Nodup :=
  h.keys_perm.nodup_iff.mpr (c.named_nodup.map fun _ _ => Nat.succ.inj)

theorem valueKeys_nodup : (values.map Prod.fst).Nodup := by
  refine h.valueKeys.nodup ?_
  rw [h.inputKeys]
  exact (List.nodup_map_iff_inj_on c.inputs_nodup.of_map).mpr fun s hs s' hs' hEq =>
    List.inj_on_of_nodup_map c.inputs_nodup hs hs' (Nat.succ.inj hEq)

theorem names_nodup : (((1, 1) :: latches ++ inputs ++ gates).map Prod.snd).Nodup := by
  refine List.nodup_cons.mpr ⟨fun hMem => ?_, h.names.ascending.imp Nat.ne_of_lt⟩
  exact absurd (h.names.bounds 1 hMem).1 (by decide)

theorem proper : (Names.ofLists latches inputs gates values).Proper (c.named.map (· + 1)) ∧
    ∀ p ∈ (1, 1) :: latches ++ inputs ++ gates,
      (Names.ofLists latches inputs gates values).target p.1 = p.2 := by
  have hZero : 0 ∉ ((1, 1) :: latches ++ inputs ++ gates).map Prod.snd := by
    refine List.not_mem_cons_of_ne_of_not_mem (by decide) fun hMem => ?_
    exact absurd (h.names.bounds 0 hMem).1 (by decide)
  have hSubset : values.map Prod.fst ⊆ ((1, 1) :: latches ++ inputs ++ gates).map Prod.fst := by
    intro v hv
    rw [List.map_append, List.map_append, List.mem_append, List.mem_append]
    exact .inl (.inr (h.valueKeys.subset hv))
  have hProper := Names.proper_ofList h.keys_nodup h.names_nodup hZero h.valueKeys_nodup hSubset
  exact ⟨hProper.1.congr fun v => h.keys_perm.mem_iff.symm, hProper.2⟩

theorem exists_key {x : Nat} (hx : x ∈ c.named) :
    ∃ p ∈ (1, 1) :: latches ++ inputs ++ gates, p.1 = x + 1 :=
  List.mem_map.mp (h.keys_perm.mem_iff.mpr (List.mem_map_of_mem (f := (· + 1)) hx))

theorem target_lt (hTwo : 2 ≤ hi) {x : Nat} (hx : x ∈ c.named) :
    (Names.ofLists latches inputs gates values).target (x + 1) < hi := by
  obtain ⟨p, hp, hEq⟩ := h.exists_key hx
  rw [← hEq, h.proper.2 p hp]
  rcases List.mem_cons.mp hp with rfl | hp
  · exact hTwo
  · exact (h.names.bounds _ (List.mem_map_of_mem hp)).2

/-- Only inputs have a definite value. -/
theorem pull_of_notMem {p : Nat × Nat} (hp : p ∈ (1, 1) :: latches ++ inputs ++ gates)
    (hKey : p.1 ∉ inputs.map Prod.fst) (ρ : Assignment) :
    (Names.ofLists latches inputs gates values).pull ρ p.1 = ρ p.2 := by
  rw [Names.pull, h.proper.2 p hp]
  cases hGet : (Names.ofLists latches inputs gates values).values.get? p.1 with
  | none => rfl
  | some b =>
    have hMem := (getElem?_ofList h.valueKeys_nodup).mp hGet
    exact absurd (h.valueKeys.subset (List.mem_map_of_mem hMem)) hKey

theorem pull_one (ρ : Assignment) :
    (Names.ofLists latches inputs gates values).pull ρ 1 = ρ 1 := by
  refine h.pull_of_notMem (p := (1, 1)) List.mem_cons_self (fun hMem => ?_) ρ
  rw [h.inputKeys] at hMem
  obtain ⟨s, hs, hZero⟩ := List.mem_map.mp hMem
  exact c.wellFormed.var_ne_zero s
    (List.mem_append_left _ (List.mem_append_left _ hs)) (Nat.succ.inj hZero)

theorem map_pull_latches (ρ : Assignment) :
    c.latches.map (fun l => (Names.ofLists latches inputs gates values).pull ρ
      (l.signal.var + 1)) = latches.map fun p => ρ p.2 := by
  have hKeys := congrArg (List.map ((Names.ofLists latches inputs gates values).pull ρ)) h.latchKeys
  rw [List.map_map, List.map_map] at hKeys
  refine hKeys.symm.trans (List.map_congr_left fun p hp => ?_)
  refine h.pull_of_notMem (List.mem_append_left _ (List.mem_append_left _
    (List.mem_cons_of_mem _ hp))) (fun hMem => ?_) ρ
  have hLatch : p.1 ∈ c.latches.map fun l => l.signal.var + 1 :=
    h.latchKeys ▸ List.mem_map_of_mem hp
  rw [h.inputKeys] at hMem
  obtain ⟨s, hs, hVar⟩ := List.mem_map.mp hMem
  obtain ⟨l, hl, hVar'⟩ := List.mem_map.mp hLatch
  exact c.input_notMem_latches hs
    (List.mem_map.mpr ⟨l, hl, Nat.succ.inj (hVar'.trans hVar.symm)⟩)

section Levels

variable {levels : List Level} (hLevels : levels.length = c.inputs.length)
  (hDefinite : values = ((c.inputs.map Signal.lit).zip levels).filterMap
    fun p => p.2.toBool?.map (p.1.var, ·))
include hDefinite

/-- An input has a definite value if its level has. -/
theorem get?_values {i : Nat} (hi : i < c.inputs.length) (hi' : i < levels.length) :
    (Names.ofLists latches inputs gates values).values.get? (c.inputs[i].var + 1) =
      levels[i].toBool? := by
  refine Option.ext fun b => (getElem?_ofList h.valueKeys_nodup).trans ?_
  rw [hDefinite, List.mem_filterMap]
  constructor
  · rintro ⟨p, hp, hPair⟩
    obtain ⟨b', hb', hEq⟩ := Option.map_eq_some_iff.mp hPair
    obtain ⟨hKey, rfl⟩ := Prod.mk.inj hEq
    obtain ⟨j, hj, rfl⟩ := List.getElem_of_mem hp
    rw [List.length_zip, List.length_map] at hj
    rw [List.getElem_zip, List.getElem_map, Signal.var_lit] at hKey
    rw [List.getElem_zip] at hb'
    have hSame : j = i := by
      refine (List.getElem?_inj (by simp; omega) c.inputs_nodup).mp ?_
      rw [List.getElem?_map, List.getElem?_map, List.getElem?_eq_getElem (by omega),
        List.getElem?_eq_getElem hi, Option.map_some, Option.map_some, Nat.succ.inj hKey]
    simpa only [hSame] using hb'
  · intro hb
    refine ⟨(c.inputs[i].lit, levels[i]),
      List.mem_iff_getElem.mpr ⟨i, by simp [hi, hi'], by simp⟩, ?_⟩
    rw [hb, Option.map_some, Signal.var_lit]

include hLevels

theorem admits (ρ : Assignment) : List.Forall₂ Level.Admits levels
    (c.inputs.map fun s => (Names.ofLists latches inputs gates values).pull ρ (s.var + 1)) := by
  rw [List.forall₂_map_right_iff, List.forall₂_iff_get]
  refine ⟨hLevels, fun i hi' hi => ?_⟩
  rw [Names.pull, List.get_eq_getElem, List.get_eq_getElem, h.get?_values hDefinite hi hi']
  cases hv : levels[i].toBool? with
  | none => exact .inl (Level.toBool?_eq_none_iff.mp hv)
  | some b => exact .inr (Level.eq_ofBool_of_toBool? hv)

/-- Values that the levels admit are those of an assignment. -/
theorem pull_eq {v : Nat → Bool} (hAdmits : List.Forall₂ Level.Admits levels
      (c.inputs.map fun s => v s.var)) {ρ : Assignment} {x : Nat} {p : Nat × Nat}
    (hp : p ∈ (1, 1) :: latches ++ inputs ++ gates) (hx : p.1 = x + 1) (hValue : ρ p.2 = v x) :
    (Names.ofLists latches inputs gates values).pull ρ (x + 1) = v x := by
  rw [Names.pull, ← hx, h.proper.2 p hp]
  cases hGet : (Names.ofLists latches inputs gates values).values.get? p.1 with
  | none => exact hValue
  | some b =>
    have hMem := (getElem?_ofList h.valueKeys_nodup).mp hGet
    have hKey := h.valueKeys.subset (List.mem_map_of_mem hMem)
    rw [h.inputKeys] at hKey
    obtain ⟨s, hs, hVar⟩ := List.mem_map.mp hKey
    obtain ⟨i, hi, rfl⟩ := List.getElem_of_mem hs
    obtain rfl : c.inputs[i].var = x := Nat.succ.inj (hVar.trans hx)
    rw [List.forall₂_map_right_iff, List.forall₂_iff_get] at hAdmits
    have hLevel := hAdmits.2 i (by omega) hi
    rw [hx, h.get?_values hDefinite hi (by omega)] at hGet
    rw [List.get_eq_getElem, List.get_eq_getElem, Level.eq_ofBool_of_toBool? hGet] at hLevel
    have hEq := congrArg Level.toBool (hLevel.resolve_left (Level.ofBool_ne_free b))
    rwa [Level.toBool_ofBool, Level.toBool_ofBool] at hEq

theorem exists_pull {v : Nat → Bool} (hAdmits : List.Forall₂ Level.Admits levels
      (c.inputs.map fun s => v s.var)) :
    ∃ ρ, ∀ x ∈ c.named, (Names.ofLists latches inputs gates values).pull ρ (x + 1) = v x := by
  obtain ⟨ρ, _, hValues⟩ := exists_values h.names_nodup (m := 0) (fun _ _ => Nat.zero_le _)
    (fun _ => false) fun y => v (y - 1)
  refine ⟨ρ, fun x hx => ?_⟩
  obtain ⟨p, hp, hKey⟩ := h.exists_key hx
  refine h.pull_eq hLevels hDefinite hAdmits hp hKey ?_
  rw [hValues p hp, hKey, Nat.add_sub_cancel]

/-- The values of inputs and gates can be chosen when those of the latches are there. -/
theorem exists_pull_of_within {lo : Nat} (hNew : Within lo hi ((inputs ++ gates).map Prod.snd))
    {v : Nat → Bool} (hAdmits : List.Forall₂ Level.Admits levels (c.inputs.map fun s => v s.var))
    (ρ : Assignment) : ∃ ρ', AgreeBelow lo ρ ρ' ∧
      ∀ x ∈ c.inputs.map Signal.var ++ c.gates.map Gate.var,
        (Names.ofLists latches inputs gates values).pull ρ' (x + 1) = v x := by
  obtain ⟨ρ', hAgree, hValues⟩ := exists_values (hNew.ascending.imp Nat.ne_of_lt)
    (fun p hp => (hNew.bounds _ (List.mem_map_of_mem hp)).1) ρ fun y => v (y - 1)
  have hKeys : (inputs ++ gates).map Prod.fst =
      (c.inputs.map Signal.var ++ c.gates.map Gate.var).map (· + 1) := by
    rw [List.map_append, h.inputKeys, h.gateKeys, List.map_append, List.map_map, List.map_map]
    rfl
  refine ⟨ρ', hAgree, fun x hx => ?_⟩
  obtain ⟨p, hp, hKey⟩ := List.mem_map.mp (hKeys ▸ List.mem_map_of_mem (f := (· + 1)) hx)
  refine h.pull_eq hLevels hDefinite hAdmits ?_ hKey ?_
  · rw [List.append_assoc]
    exact List.mem_append_right _ hp
  · rw [hValues p hp, hKey, Nat.add_sub_cancel]

theorem levelLits {lo hi' : Nat} (hLe : lo ≤ hi') (hInputs : Within lo hi' (inputs.map Prod.snd)) :
    Unrolling.LevelLits hi' lo levels (inputLits c (.ofLists latches inputs gates values)) := by
  have hLength : inputs.length = c.inputs.length := by
    rw [← List.length_map (f := Prod.fst), h.inputKeys, List.length_map]
  refine levelLits_of_within hLe hInputs (by simp [hLevels, hLength]) ?_
  rw [inputLits, List.forall₂_map_right_iff, List.forall₂_iff_get]
  refine ⟨by simp [hLevels, hLength], fun i hi'' hi => ?_⟩
  have hZip : (levels.zip (inputs.map Prod.snd)).get ⟨i, hi''⟩ =
      (levels[i], inputs[i].2) := by simp
  have hKey : inputs[i].1 = c.inputs[i].var + 1 := by
    have hGet := List.getElem_of_eq h.inputKeys (i := i) (by simp; omega)
    rwa [List.getElem_map, List.getElem_map] at hGet
  have hTarget := h.proper.2 inputs[i]
    (List.mem_append_left _ (List.mem_append_right _ (List.getElem_mem _)))
  rw [hZip, List.get_eq_getElem, IsLevelLit, Names.lit, Signal.var_lit,
    h.get?_values hDefinite hi (by omega)]
  cases levels[i].toBool? with
  | some b =>
    exact congrArg Lit.ofBool (Signal.eval_lit_of_plain (c.input_plain (List.getElem_mem hi)) b)
  | none =>
    rw [hKey, ← Signal.var_lit] at hTarget
    refine (Cnf.var_renameLit ?_).trans hTarget
    rw [Signal.var_lit]
    exact h.proper.1.ne_zero _ (List.mem_map_of_mem (f := (· + 1))
      (c.mem_named_of_inputs (List.getElem_mem hi)))

theorem known {opened : List Lit} (hFree : ∀ p ∈ (c.inputs.map Signal.lit).zip levels,
      p.2 = .free → ∃ l ∈ opened, (p.1.var, l.var) ∈ inputs) {s : Signal} (hs : s ∈ c.inputs) :
    ((Names.ofLists latches inputs gates values).lit s.lit).isConstant = true ∨
      ((Names.ofLists latches inputs gates values).lit s.lit).var ∈ opened.map Lit.var := by
  obtain ⟨i, hi, rfl⟩ := List.getElem_of_mem hs
  rw [Names.lit, Signal.var_lit, h.get?_values hDefinite hi (by omega)]
  cases hv : levels[i].toBool? with
  | some b =>
    left
    change (Lit.ofBool (c.inputs[i].lit.eval b)).isConstant = true
    cases c.inputs[i].lit.eval b <;> rfl
  | none =>
    right
    obtain ⟨l, hl, hName⟩ := hFree (c.inputs[i].lit, levels[i])
      (List.mem_iff_getElem.mpr ⟨i, by simp [hLevels, hi], by simp⟩)
      (Level.toBool?_eq_none_iff.mp hv)
    have hTarget := h.proper.2 _ (List.mem_append_left _ (List.mem_append_right _ hName))
    have hZero : (Names.ofLists latches inputs gates values).target c.inputs[i].lit.var ≠ 0 :=
      hTarget ▸ Nat.ne_of_gt l.var_pos
    change (Cnf.renameLit _ _).var ∈ _
    rw [Cnf.var_renameLit hZero, hTarget]
    exact List.mem_map_of_mem hl

end Levels

end Listed

structure GateNames (M : Set Assignment) (e : Encoder) (r : List (Nat × Nat) × Encoder) : Prop
    extends Encoder.Extends M e r.2 where
  models : r.2.models M = e.models M
  keys : r.1.map Prod.fst = c.gates.map fun g => g.var + 1
  within : Within e.nextVar r.2.nextVar (r.1.map Prod.snd)

theorem gateNames (h : e.Valid M) : GateNames c M e (nameGates c e) := by
  obtain ⟨hKeys, hWithin⟩ := map_zip_freshList e c.gates fun g => g.out.lit.var
  exact ⟨h.freshList_extends _, Encoder.models_freshList M e _,
    hKeys.trans (List.map_congr_left fun g _ => g.out.var_lit), hWithin⟩

/-- What the names of a step stand for. -/
structure Naming (M : Set Assignment) (index : Nat) (levels : List Level) (state : List Lit)
    (e : Encoder) (flip : Lit) (n : Names) (opened : List Lit) (e' : Encoder) : Prop
    extends Encoder.Extends M e e' where
  flipBelow : flip.var < e'.nextVar
  proper : n.Proper (c.named.map (· + 1))
  below : ∀ x ∈ c.named, n.target (x + 1) < e'.nextVar
  constant : ∀ ρ, n.pull ρ 1 = ρ 1
  admits : ∀ ρ, List.Forall₂ Level.Admits levels (c.inputs.map fun s => n.pull ρ (s.var + 1))
  known : ∀ s ∈ c.inputs, (n.lit s.lit).isConstant = true ∨ (n.lit s.lit).var ∈ opened.map Lit.var
  levelLits : Unrolling.LevelLits e'.nextVar e.nextVar levels (inputLits c n)
  state : ∀ ρ ∈ e'.models M, c.latches.map (fun l => n.pull ρ (l.signal.var + 1)) =
    (state.map (Lit.holds ρ)).mapIdx fun i b => b ^^ (decide (i = index) && flip.holds ρ)
  exists_pull : ∀ v : Nat → Bool, List.Forall₂ Level.Admits levels (c.inputs.map fun s => v s.var) →
    ∃ ρ, ∀ x ∈ c.named, n.pull ρ (x + 1) = v x
  exists_mem : ∀ ρ ∈ e.models M, ∀ (b : Bool) (v : Nat → Bool),
    List.Forall₂ Level.Admits levels (c.inputs.map fun s => v s.var) →
    ∃ ρ' ∈ e'.models M, AgreeBelow e.nextVar ρ ρ' ∧ flip.holds ρ' = b ∧
      ∀ x ∈ c.inputs.map Signal.var ++ c.gates.map Gate.var, n.pull ρ' (x + 1) = v x

variable {c} {t : Transition} {levels : List Level} {state opened : List Lit} {n : Names}
  {e' : Encoder}

namespace Naming

variable (h : Naming c M index levels state e flip n opened e')
include h

theorem target_ne_zero {s : Signal} (hs : s.var ∈ c.named) : n.target s.lit.var ≠ 0 := by
  rw [Signal.var_lit]
  exact h.proper.ne_zero _ (List.mem_map_of_mem (f := (· + 1)) hs)

theorem lit_below {s : Signal} (hs : s.var ∈ c.named) : (n.lit s.lit).var < e'.nextVar := by
  refine Names.var_lit_lt e'.two_le_nextVar (h.target_ne_zero hs) ?_
  rw [Signal.var_lit]
  exact h.below _ hs

theorem inputsBelow : ∀ l ∈ inputLits c n, l.var < e'.nextVar := by
  rw [inputLits, List.forall_mem_map]
  exact fun s hs => h.lit_below (c.mem_named_of_inputs hs)

/-- The copy of the transition relation can be satisfied, whatever the definite inputs. -/
theorem exists_copy (hLevels : levels.length = c.inputs.length) :
    ∃ copy, n.copy (c.gates.flatMap Transition.ofGate) = .ok copy ∧ ∃ ρ, ρ ∈ copy.models := by
  obtain ⟨copy, hCopy⟩ := h.proper.exists_copy fun _ => Transition.var_mem_of_mem_relation
  obtain ⟨start, hStart⟩ : ∃ t : Table Bool,
      t = (Table.initial c).setInputs c (levels.map Level.toBool) := ⟨_, rfl⟩
  have hCount : (levels.map Level.toBool).length = c.inputs.length := by rwa [List.length_map]
  have hInputs : c.inputs.map (fun s => (start.settle c).get s.var) = levels.map Level.toBool := by
    refine Eq.trans (List.map_congr_left fun s hs => ?_)
      (Table.map_get_setAll c.inputs_nodup (Table.initial c) hCount)
    rw [hStart]
    exact Table.get_foldl_evalGate_of_notMem (c.input_notMem_gates hs) _
  have hAdmits : List.Forall₂ Level.Admits levels (levels.map Level.toBool) := by
    rw [List.forall₂_map_right_iff, List.forall₂_same]
    exact fun v _ => v.admits_toBool
  obtain ⟨ρ, hρ⟩ := h.exists_pull _ (hInputs.symm ▸ hAdmits)
  refine ⟨copy, hCopy, ρ, ?_⟩
  rw [h.proper.mem_models_copy (fun _ => Transition.var_mem_of_mem_relation) hCopy]
  exact Transition.mem_models_of_settle hρ

end Naming

theorem naming_spec (ht : Transition.ofCircuit c = .ok t) (h : e.Valid M)
    (hState : ∀ l ∈ state, l.var < e.nextVar) (hLength : state.length = c.latches.length)
    (hLevels : levels.length = c.inputs.length)
    (hNaming : naming c t index levels state e = ((flip, n, opened), e')) :
    Naming c M index levels state e flip n opened e' := by
  obtain ⟨_, _, _, hLits, _, _, hStates, _⟩ := Transition.ofCircuit_eq_ok ht
  rw [naming, hLits, hStates] at hNaming
  obtain ⟨latches, e₂, hLatches⟩ : ∃ latches e₂, nameLatches index e.fresh.1 0
      ((c.latches.map fun l => l.signal.lit).zip state) e.fresh.2 = (latches, e₂) := ⟨_, _, rfl⟩
  obtain ⟨inputs, values, opened', e₃, hInputs⟩ : ∃ inputs values opened' e₃,
      nameInputs ((c.inputs.map Signal.lit).zip levels) e₂ = ((inputs, values, opened'), e₃) :=
    ⟨_, _, _, _, rfl⟩
  obtain ⟨gates, e₄, hGates⟩ : ∃ gates e₄, nameGates c e₃ = (gates, e₄) := ⟨_, _, rfl⟩
  simp only [hLatches, hInputs, hGates, Prod.mk.injEq] at hNaming
  obtain ⟨⟨rfl, rfl, rfl⟩, rfl⟩ := hNaming
  -- The names are ascending, as latches, inputs and gates are named one after the other.
  have hFlip : e.fresh.1.var < e.fresh.2.nextVar := e.var_fresh.trans_lt (Nat.lt_succ_self _)
  have hLatchNames : LatchNames M e.fresh.2 index e.fresh.1 0 _ (latches, e₂) :=
    hLatches ▸ latchNames h.fresh hFlip
      (fun p hp => Nat.lt_succ_of_lt (hState _ (List.of_mem_zip hp).2)) 0
  have hInputNames : InputNames M e₂ _ ((inputs, values, opened'), e₃) :=
    hInputs ▸ inputNames hLatchNames.valid _
  have hGateNames : GateNames c M e₃ (gates, e₄) := hGates ▸ gateNames c hInputNames.valid
  have hListed : Listed c latches inputs gates values e₄.nextVar := by
    refine ⟨?_, ?_, hGateNames.keys, ?_, ?_⟩
    · rw [hLatchNames.keys, map_var_zip _ _ (by simp [hLength])]
      exact List.map_map.trans (List.map_congr_left fun l _ => l.signal.var_lit)
    · rw [hInputNames.keys, map_var_zip _ _ (by simp [hLevels])]
      exact List.map_map.trans (List.map_congr_left fun s _ => s.var_lit)
    · have hDefinite : values = _ := hInputNames.definite
      rw [hInputNames.keys, hDefinite]
      exact map_fst_filterMap_sublist _
    · rw [List.map_append, List.map_append]
      exact ((hLatchNames.within.append hInputNames.within hLatchNames.le hInputNames.le).append
        hGateNames.within (hLatchNames.le.trans hInputNames.le) hGateNames.le).mono
        e.fresh.2.two_le_nextVar
  have hNew : Within e₂.nextVar e₄.nextVar ((inputs ++ gates).map Prod.snd) := by
    rw [List.map_append]
    exact hInputNames.within.append hGateNames.within hInputNames.le hGateNames.le
  refine ⟨h.fresh_extends.trans (hLatchNames.toExtends.trans
    (hInputNames.toExtends.trans hGateNames.toExtends)), ?_, hListed.proper.1,
    fun x => hListed.target_lt e₄.two_le_nextVar, hListed.pull_one,
    hListed.admits hLevels hInputNames.definite,
    fun s => hListed.known hLevels hInputNames.definite hInputNames.free, ?_, fun ρ hρ => ?_,
    fun v => hListed.exists_pull hLevels hInputNames.definite, fun ρ hρ b v hAdmits => ?_⟩
  · exact lt_of_lt_of_le hFlip (hLatchNames.le.trans (hInputNames.le.trans hGateNames.le))
  · exact (hListed.levelLits hLevels hInputNames.definite hInputNames.le hInputNames.within).mono
      ((Nat.le_succ _).trans hLatchNames.le) hGateNames.le
  · rw [hListed.map_pull_latches,
      hLatchNames.values ρ (hInputNames.subset (hGateNames.subset hρ))]
    apply List.ext_getElem <;> simp [hLength]
  · -- The flip is chosen first, then the latches follow, and the other names are still free.
    obtain ⟨ρ₂, hρ₂, hAgree₂⟩ := hLatchNames.lift _ (h.update_mem hρ b)
    obtain ⟨ρ₃, hAgree₃, hValues⟩ :=
      hListed.exists_pull_of_within hLevels hInputNames.definite hNew hAdmits ρ₂
    have hAgree := hAgree₂.trans (hAgree₃.mono hLatchNames.le)
    refine ⟨ρ₃, ?_, (AgreeBelow.update _ ρ b).trans (hAgree.mono (Nat.le_succ _)), ?_, hValues⟩
    · rw [hGateNames.models, hInputNames.models]
      exact hLatchNames.valid.closed ρ₂ hρ₂ ρ₃ hAgree₃
    · rw [← hAgree.holds hFlip, Encoder.holds_fresh, Function.update_self]

end Naming

end SoftError.Vulnerability.OneShot

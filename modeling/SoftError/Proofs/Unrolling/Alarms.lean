import SoftError.Proofs.Unrolling.Inputs

/-!
# Golden alarms that are constant

Whether the alarm of a symbolic run is a constant does not depend on the numbers of its
variables. So a run that shares its encoder with others has constant alarms at the same
steps as the run alone, as long as no conjunctions are remembered.
-/

namespace SoftError

/-- A renaming of literals with variables below `n` to literals with variables below `n'`. -/
structure Renames (n n' : Nat) (R : Lit → Lit → Prop) : Prop where
  bot : R .bot .bot
  neg : ∀ {a a'}, R a a' → R (-a) (-a')
  eq_iff : ∀ {a a' b b'}, R a a' → R b b' → (a = b ↔ a' = b')
  below : ∀ {a a'}, R a a' → a.var < n ∧ a'.var < n'

namespace Renames

variable {n n' m m' : Nat} {R : Lit → Lit → Prop}

theorem mono (h : Renames n n' R) (hm : n ≤ m) (hm' : n' ≤ m') : Renames m m' R :=
  ⟨h.bot, h.neg, h.eq_iff, fun ha => ⟨lt_of_lt_of_le (h.below ha).1 hm,
    lt_of_lt_of_le (h.below ha).2 hm'⟩⟩

theorem top (h : Renames n n' R) : R .top .top := h.neg h.bot

theorem ofBool (h : Renames n n' R) (b : Bool) : R (.ofBool b) (.ofBool b) := by
  cases b with
  | false => exact h.bot
  | true => exact h.top

theorem isConstant_eq (h : Renames n n' R) {a a' : Lit} (ha : R a a') :
    a.isConstant = a'.isConstant := by
  rw [Bool.eq_iff_iff, Lit.isConstant_iff, Lit.isConstant_iff, h.eq_iff ha h.bot,
    h.eq_iff ha h.top]

theorem ne_neg (l : Lit) : l ≠ -l := by
  intro h
  have := congrArg Lit.positive h
  rw [Lit.positive_neg] at this
  exact Bool.not_ne_self _ this.symm

/-- A new literal on either side. -/
theorem extend (h : Renames n n' R) {l l' : Lit} (hn : n ≤ l.var) (hm : l.var < m)
    (hn' : n' ≤ l'.var) (hm' : l'.var < m') :
    Renames m m' fun a a' => R a a' ∨ (a = l ∧ a' = l') ∨ (a = -l ∧ a' = -l') := by
  have hLeft : ∀ {a a'}, R a a' → a ≠ l ∧ a ≠ -l := by
    intro a a' ha
    have hVar := (h.below ha).1
    constructor <;> rintro rfl
    · omega
    · rw [Lit.var_neg] at hVar
      omega
  have hRight : ∀ {a a'}, R a a' → a' ≠ l' ∧ a' ≠ -l' := by
    intro a a' ha
    have hVar := (h.below ha).2
    constructor <;> rintro rfl
    · omega
    · rw [Lit.var_neg] at hVar
      omega
  have hNe := ne_neg l
  have hNe' := ne_neg l'
  refine ⟨.inl h.bot, ?_, ?_, ?_⟩
  · rintro a a' (ha | ⟨rfl, rfl⟩ | ⟨rfl, rfl⟩)
    · exact .inl (h.neg ha)
    · exact .inr (.inr ⟨rfl, rfl⟩)
    · exact .inr (.inl ⟨Lit.neg_neg _, Lit.neg_neg _⟩)
  · rintro a a' b b' (ha | ⟨rfl, rfl⟩ | ⟨rfl, rfl⟩) (hb | ⟨rfl, rfl⟩ | ⟨rfl, rfl⟩)
    · exact h.eq_iff ha hb
    · exact iff_of_false (hLeft ha).1 (hRight ha).1
    · exact iff_of_false (hLeft ha).2 (hRight ha).2
    · exact iff_of_false (hLeft hb).1.symm (hRight hb).1.symm
    · exact iff_of_true rfl rfl
    · exact iff_of_false hNe hNe'
    · exact iff_of_false (hLeft hb).2.symm (hRight hb).2.symm
    · exact iff_of_false hNe.symm hNe'.symm
    · exact iff_of_true rfl rfl
  · rintro a a' (ha | ⟨rfl, rfl⟩ | ⟨rfl, rfl⟩)
    · have hVar := h.below ha
      omega
    · exact ⟨hm, hm'⟩
    · rw [Lit.var_neg, Lit.var_neg]
      exact ⟨hm, hm'⟩

theorem fresh {e e' : Encoder} (h : Renames e.nextVar e'.nextVar R) :
    Renames e.fresh.2.nextVar e'.fresh.2.nextVar fun a a' =>
      R a a' ∨ (a = e.fresh.1 ∧ a' = e'.fresh.1) ∨ (a = -e.fresh.1 ∧ a' = -e'.fresh.1) := by
  have hVar := e.var_fresh
  have hVar' := e'.var_fresh
  exact h.extend hVar.ge (hVar.trans_lt (Nat.lt_succ_self _)) hVar'.ge
    (hVar'.trans_lt (Nat.lt_succ_self _))

theorem setAll {T T' : Table Lit} (hT : ∀ v, R (T.get v) (T'.get v))
    (ss : List Signal) {ls ls' : List Lit} (hls : List.Forall₂ R ls ls') (v : Nat) :
    R ((T.setAll ss ls).get v) ((T'.setAll ss ls').get v) := by
  induction ss generalizing T T' ls ls' with
  | nil => exact hT v
  | cons s ss ih =>
    cases hls with
    | nil => exact hT v
    | cons hl hls =>
      refine ih (fun w => ?_) hls
      rw [Table.get_set, Table.get_set]
      split
      · exact hl
      · exact hT w

theorem setLatches {T T' : Table Lit} (hT : ∀ v, R (T.get v) (T'.get v))
    (ks : List Latch) {ls ls' : List Lit} (hls : List.Forall₂ R ls ls') (v : Nat) :
    R ((T.setLatches ks ls).get v) ((T'.setLatches ks ls').get v) := by
  rw [Table.setLatches_eq_setAll, Table.setLatches_eq_setAll]
  exact setAll hT _ hls v

theorem read (h : Renames n n' R) {T T' : Table Lit} (hT : ∀ v, R (T.get v) (T'.get v))
    (s : Signal) : R (T.read s) (T'.read s) := by
  rw [Table.read, Table.read]
  split
  · exact h.neg (hT _)
  · exact hT _

end Renames

/-- Two tables with their encoders are the same up to a renaming. -/
structure Alike (x x' : Table Lit × Encoder) : Prop where
  plain : x.2.cache = none
  plain' : x'.2.cache = none
  renamed : ∃ R, Renames x.2.nextVar x'.2.nextVar R ∧ ∀ v, R (x.1.get v) (x'.1.get v)

namespace Unrolling

variable {R : Lit → Lit → Prop} {e e' : Encoder}

theorem renames_and (h : Renames e.nextVar e'.nextVar R) (hPlain : e.cache = none)
    (hPlain' : e'.cache = none) {a a' b b' : Lit} (ha : R a a') (hb : R b b') :
    ∃ R', (∀ l l', R l l' → R' l l') ∧
      Renames (e.and a b).2.nextVar (e'.and a' b').2.nextVar R' ∧
      R' (e.and a b).1 (e'.and a' b').1 ∧
      (e.and a b).2.cache = none ∧ (e'.and a' b').2.cache = none := by
  have hBot : (a = .bot ∨ b = .bot) ↔ (a' = .bot ∨ b' = .bot) :=
    or_congr (h.eq_iff ha h.bot) (h.eq_iff hb h.bot)
  have hTop : a = .top ↔ a' = .top := h.eq_iff ha h.top
  have hSame : (b = .top ∨ a = b) ↔ (b' = .top ∨ a' = b') :=
    or_congr (h.eq_iff hb h.top) (h.eq_iff ha hb)
  have hOpposite : a = -b ↔ a' = -b' := h.eq_iff ha (h.neg hb)
  rw [Encoder.and, Encoder.and]
  simp only [hBot, hTop, hSame, hOpposite]
  split
  · exact ⟨R, fun _ _ => id, h, h.bot, hPlain, hPlain'⟩
  · split
    · exact ⟨R, fun _ _ => id, h, hb, hPlain, hPlain'⟩
    · split
      · exact ⟨R, fun _ _ => id, h, ha, hPlain, hPlain'⟩
      · split
        · exact ⟨R, fun _ _ => id, h, h.bot, hPlain, hPlain'⟩
        · rw [hPlain, hPlain']
          refine ⟨_, fun _ _ => Or.inl, h.fresh, Or.inr (Or.inl ⟨rfl, rfl⟩), ?_, ?_⟩
          · simp [Encoder.fresh, Encoder.add, hPlain]
          · simp [Encoder.fresh, Encoder.add, hPlain']

/-- The literals of an input vector: constants where it is definite, and elsewhere new variables
in ascending order, from the second bound up to the first. -/
inductive LevelLits (hi : Nat) : Nat → List Level → List Lit → Prop where
  | nil {lo : Nat} (h : lo ≤ hi) : LevelLits hi lo [] []
  | definite {lo : Nat} {v : Level} {b : Bool} {vs : List Level} {ls : List Lit}
    (hv : v.toBool? = some b) (rest : LevelLits hi lo vs ls) :
    LevelLits hi lo (v :: vs) (.ofBool b :: ls)
  | free {lo : Nat} {v : Level} {l : Lit} {vs : List Level} {ls : List Lit}
    (hv : v.toBool? = none) (hl : lo ≤ l.var) (rest : LevelLits hi (l.var + 1) vs ls) :
    LevelLits hi lo (v :: vs) (l :: ls)

theorem levelLits_spec (e : Encoder) (vs : List Level) :
    LevelLits (levelLits e vs).2.nextVar e.nextVar vs (levelLits e vs).1.1 := by
  induction vs generalizing e with
  | nil => exact .nil le_rfl
  | cons v vs ih =>
    cases hv : v.toBool? with
    | some b =>
      simp only [levelLits, hv]
      exact .definite hv (ih e)
    | none =>
      have hRest := ih e.fresh.2
      rw [Encoder.nextVar_fresh, ← e.var_fresh] at hRest
      simp only [levelLits, hv]
      exact .free hv e.var_fresh.ge hRest

theorem LevelLits.mono {hi hi' lo lo' : Nat} {vs : List Level} {ls : List Lit}
    (h : LevelLits hi lo vs ls) (hLo : lo' ≤ lo) (hHi : hi ≤ hi') : LevelLits hi' lo' vs ls := by
  induction h generalizing lo' with
  | nil h => exact .nil (hLo.trans (h.trans hHi))
  | definite hv _ ih => exact .definite hv (ih hLo)
  | free hv hl _ ih => exact .free hv (hLo.trans hl) (ih le_rfl)

/-- The literals of the same inputs can be renamed to each other. -/
theorem LevelLits.renames {hi hi' lo lo' : Nat} {vs : List Level} {ls ls' : List Lit}
    (h : LevelLits hi lo vs ls) (h' : LevelLits hi' lo' vs ls') (hR : Renames lo lo' R) :
    ∃ R', (∀ l l', R l l' → R' l l') ∧ Renames hi hi' R' ∧ List.Forall₂ R' ls ls' := by
  induction h generalizing lo' ls' R with
  | nil h =>
    cases h' with
    | nil h' => exact ⟨R, fun _ _ => id, hR.mono h h', .nil⟩
  | definite hv _ ih =>
    cases h' with
    | definite hv' rest' =>
      rw [hv] at hv'
      cases hv'
      obtain ⟨R', hSub, hRenames, hLits⟩ := ih rest' hR
      exact ⟨R', hSub, hRenames, .cons (hSub _ _ (hR.ofBool _)) hLits⟩
    | free hv' => cases hv.symm.trans hv'
  | free hv hl _ ih =>
    cases h' with
    | definite hv' => cases hv.symm.trans hv'
    | free _ hl' rest' =>
      obtain ⟨R', hSub, hRenames, hLits⟩ :=
        ih rest' (hR.extend hl (Nat.lt_succ_self _) hl' (Nat.lt_succ_self _))
      exact ⟨R', fun l l' hl => hSub l l' (.inl hl), hRenames,
        .cons (hSub _ _ (.inr (.inl ⟨rfl, rfl⟩))) hLits⟩

end Unrolling

namespace Alike

variable {c : Circuit} {T T' : Table Lit} {e e' : Encoder}

theorem mono (h : Alike (T, e) (T', e')) {d : Encoder} (hNext : e.nextVar ≤ d.nextVar)
    (hPlain : d.cache = none) : Alike (T, d) (T', e') := by
  obtain ⟨R, hR, hT⟩ := h.renamed
  exact ⟨hPlain, h.plain', R, hR.mono hNext le_rfl, hT⟩

theorem isConstant_alarm (h : Alike (T, e) (T', e')) :
    (T.alarm c).isConstant = (T'.alarm c).isConstant := by
  obtain ⟨R, hR, hT⟩ := h.renamed
  rw [Table.alarm, Table.alarm]
  cases c.alarm? with
  | none => rfl
  | some s => exact hR.isConstant_eq (hR.read hT s)

theorem evalGate (h : Alike (T, e) (T', e')) (g : Gate) :
    Alike (Unrolling.evalGate (T, e) g) (Unrolling.evalGate (T', e') g) := by
  obtain ⟨R, hR, hT⟩ := h.renamed
  obtain ⟨R', hSub, hR', hAnd, hPlain, hPlain'⟩ :=
    Unrolling.renames_and hR h.plain h.plain' (hR.read hT g.left) (hR.read hT g.right)
  refine ⟨hPlain, hPlain', R', hR', fun v => ?_⟩
  change R' ((T.set g.var _).get v) ((T'.set g.var _).get v)
  rw [Table.get_set, Table.get_set]
  split
  · exact hAnd
  · exact hSub _ _ (hT v)

theorem gates {x x' : Table Lit × Encoder} (h : Alike x x') (gates : List Gate) :
    Alike (gates.foldl Unrolling.evalGate x) (gates.foldl Unrolling.evalGate x') := by
  induction gates generalizing x x' with
  | nil => exact h
  | cons g gates ih => exact ih (h.evalGate g)

theorem advance (h : Alike (T, e) (T', e')) : Alike (T.advance c, e) (T'.advance c, e') := by
  obtain ⟨R, hR, hT⟩ := h.renamed
  refine ⟨h.plain, h.plain', R, hR, Renames.setLatches hT c.latches ?_⟩
  rw [Table.nextState, Table.nextState, List.forall₂_map_left_iff, List.forall₂_map_right_iff]
  exact List.forall₂_same.mpr fun l _ => hR.read hT l.next

theorem initial (h : e.cache = none) (h' : e'.cache = none) :
    Alike (Table.initial c, e) (Table.initial c, e') := by
  have hR : Renames e.nextVar e'.nextVar fun a a' => a = a' ∧ a.isConstant = true := by
    refine ⟨⟨rfl, rfl⟩, ?_, ?_, ?_⟩
    · rintro a _ ⟨rfl, ha⟩
      refine ⟨rfl, ?_⟩
      rwa [Lit.isConstant, Lit.var_neg]
    · rintro a _ b _ ⟨rfl, _⟩ ⟨rfl, _⟩
      exact Iff.rfl
    · rintro a _ ⟨rfl, ha⟩
      exact ⟨Encoder.var_lt_of_isConstant ha e, Encoder.var_lt_of_isConstant ha e'⟩
  refine ⟨h, h', _, hR, fun v => ?_⟩
  refine Renames.setLatches (R := fun a a' => a = a' ∧ a.isConstant = true) (fun v => ?_)
    c.latches ?_ v
  · rw [Table.get_blankUpTo]
    exact hR.bot
  · rw [List.forall₂_map_left_iff, List.forall₂_map_right_iff]
    exact List.forall₂_same.mpr fun l _ => hR.ofBool l.initial

end Alike

namespace Unrolling

variable (c : Circuit)

/-- A run of its own after the given steps. -/
def solo (steps : List (List Level)) : Unrolling × Encoder :=
  steps.foldl (fun s vs => ((drive c s vs).1.advance c, (drive c s vs).2))
    (initial c, .plain)

def alarmsFrom (s : Unrolling × Encoder) : List (List Level) → List Lit
  | [] => []
  | vs :: rest =>
    let s := drive c s vs
    s.1.alarm c :: alarmsFrom (s.1.advance c, s.2) rest

/-- The alarm at each step of a run of its own. -/
def alarms (steps : List (List Level)) : List Lit := alarmsFrom c (initial c, .plain) steps

variable {c} {u u' : Unrolling} {e e' : Encoder}

theorem solo_snoc (steps : List (List Level)) (vs : List Level) :
    solo c (steps ++ [vs]) =
      ((drive c (solo c steps) vs).1.advance c, (drive c (solo c steps) vs).2) := by
  rw [solo, List.foldl_append]
  rfl

theorem alarmsFrom_snoc (s : Unrolling × Encoder) (steps : List (List Level)) (vs : List Level) :
    alarmsFrom c s (steps ++ [vs]) = alarmsFrom c s steps ++
      [(drive c (steps.foldl (fun s vs => ((drive c s vs).1.advance c, (drive c s vs).2)) s)
        vs).1.alarm c] := by
  induction steps generalizing s with
  | nil => rfl
  | cons step steps ih =>
    rw [List.cons_append, alarmsFrom, ih]
    rfl

theorem alarms_snoc (steps : List (List Level)) (vs : List Level) :
    alarms c (steps ++ [vs]) = alarms c steps ++ [(drive c (solo c steps) vs).1.alarm c] :=
  alarmsFrom_snoc _ steps vs

theorem length_alarmsFrom (s : Unrolling × Encoder) (steps : List (List Level)) :
    (alarmsFrom c s steps).length = steps.length := by
  induction steps generalizing s with
  | nil => rfl
  | cons vs steps ih => rw [alarmsFrom, List.length_cons, ih, List.length_cons]

theorem length_alarms (steps : List (List Level)) : (alarms c steps).length = steps.length :=
  length_alarmsFrom _ steps

theorem alarmsFrom_take (s : Unrolling × Encoder) (steps : List (List Level)) (n : Nat) :
    alarmsFrom c s (steps.take n) = (alarmsFrom c s steps).take n := by
  induction steps generalizing s n with
  | nil => simp [alarmsFrom]
  | cons vs steps ih =>
    cases n with
    | zero => rfl
    | succ n => rw [List.take_succ_cons, alarmsFrom, ih, alarmsFrom, List.take_succ_cons]

theorem alarms_take (steps : List (List Level)) (n : Nat) :
    alarms c (steps.take n) = (alarms c steps).take n :=
  alarmsFrom_take _ steps n

end Unrolling

namespace Alike

variable {c : Circuit} {u u' : Unrolling} {e e' : Encoder}

theorem setInputs (h : Alike (u.table, e) (u'.table, e')) {d d' : Encoder} {vs : List Level}
    {ls ls' : List Lit} (hls : Unrolling.LevelLits d.nextVar e.nextVar vs ls)
    (hls' : Unrolling.LevelLits d'.nextVar e'.nextVar vs ls') (hPlain : d.cache = none)
    (hPlain' : d'.cache = none) :
    Alike ((u.setInputs c ls).table, d) ((u'.setInputs c ls').table, d') := by
  obtain ⟨R, hR, hT⟩ := h.renamed
  obtain ⟨R', hSub, hR', hLits⟩ := hls.renames hls' hR
  exact ⟨hPlain, hPlain', R', hR', Renames.setAll (fun v => hSub _ _ (hT v)) c.inputs hLits⟩

theorem applyLevels (h : Alike (u.table, e) (u'.table, e')) (vs : List Level) :
    Alike ((u.applyLevels c vs e).1.table, (u.applyLevels c vs e).2)
      ((u'.applyLevels c vs e').1.table, (u'.applyLevels c vs e').2) :=
  h.setInputs (Unrolling.levelLits_spec e _) (Unrolling.levelLits_spec e' _)
    ((Unrolling.cache_levelLits e _).trans h.plain)
    ((Unrolling.cache_levelLits e' _).trans h.plain')

/-- The next step of a run is that of the run alone. -/
theorem drive (h : Alike (u.table, e) (u'.table, e')) (vs : List Level) :
    Alike ((Unrolling.drive c (u, e) vs).1.table, (Unrolling.drive c (u, e) vs).2)
      ((Unrolling.drive c (u', e') vs).1.table, (Unrolling.drive c (u', e') vs).2) :=
  (h.applyLevels vs).gates c.gates

/-- The inputs of the run need not be numbered one after the other. -/
theorem step_setInputs (h : Alike (u.table, e) (u'.table, e')) {d : Encoder} {vs : List Level}
    {ls : List Lit} (hls : Unrolling.LevelLits d.nextVar e.nextVar vs ls) (hPlain : d.cache = none)
    (hLength : vs.length = c.inputs.length) :
    Alike (((u.setInputs c ls).step c d).1.table, ((u.setInputs c ls).step c d).2)
      ((Unrolling.drive c (u', e') vs).1.table, (Unrolling.drive c (u', e') vs).2) := by
  rw [← List.take_of_length_le hLength.le] at hls
  exact (h.setInputs hls (Unrolling.levelLits_spec e' _) hPlain
    ((Unrolling.cache_levelLits e' _).trans h.plain')).gates c.gates

end Alike

end SoftError

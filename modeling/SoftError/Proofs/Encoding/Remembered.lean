import SoftError.Proofs.Encoding.Calls

/-!
# What an encoder remembers

A conjunction needs a variable only if it is neither folded away nor remembered. Apart from
clearing the cache and starting over, nothing makes an encoder forget a conjunction, so one
that was asked for before has the same literal again, and the encoder is left as it was.
-/

namespace SoftError

namespace Encoder

/-- The literal that a conjunction is folded to. -/
def folded? (a b : Lit) : Option Lit :=
  if a = .bot ∨ b = .bot then some .bot
  else if a = .top then some b
  else if b = .top ∨ a = b then some a
  else if a = -b then some .bot
  else none

/-- The literal that is remembered for a conjunction. -/
def remembered? (e : Encoder) (a b : Lit) : Option Lit := e.cache.bind fun cache => cache.find? a b

/-- The literal of a conjunction that needs no variable. -/
def known? (e : Encoder) (a b : Lit) : Option Lit := (folded? a b).or (e.remembered? a b)

def remember (e : Encoder) (a b l : Lit) : Encoder :=
  { e with cache := e.cache.map fun cache => cache.insert a b l }

/-- A fresh literal for a conjunction, which is remembered. -/
def introduce (e : Encoder) (a b : Lit) : Lit × Encoder :=
  (e.fresh.1, (e.fresh.2.add [[a, -e.fresh.1], [b, -e.fresh.1], [-a, -b, e.fresh.1]]).remember a b
    e.fresh.1)

theorem and_eq (e : Encoder) (a b : Lit) :
    e.and a b = (e.known? a b).elim (e.introduce a b) fun l => (l, e) := by
  rw [Encoder.and, known?, folded?]
  split_ifs
  · rfl
  · rfl
  · rfl
  · rfl
  · rw [Option.none_or, remembered?]
    cases e.cache.bind fun cache => cache.find? a b <;> rfl

/-- Whatever the first encoder remembers, the second does. -/
structure Keeps (e e' : Encoder) : Prop where
  caching : e.cache.isSome = true → e'.cache.isSome = true
  remembers : ∀ a b l, e.remembered? a b = some l → e'.remembered? a b = some l

variable {e e' e'' : Encoder} {a b : Lit}

namespace Keeps

theorem refl (e : Encoder) : e.Keeps e := ⟨id, fun _ _ _ => id⟩

theorem trans (h : e.Keeps e') (h' : e'.Keeps e'') : e.Keeps e'' :=
  ⟨h'.caching ∘ h.caching, fun a b l hl => h'.remembers a b l (h.remembers a b l hl)⟩

theorem of_cache_eq (h : e'.cache = e.cache) : e.Keeps e' := by
  refine ⟨fun hCache => h ▸ hCache, fun a b l hl => ?_⟩
  rw [remembered?, h]
  exact hl

theorem known (h : e.Keeps e') {l : Lit} (hl : e.known? a b = some l) :
    e'.known? a b = some l := by
  rw [known?] at hl ⊢
  cases hFolded : folded? a b with
  | some k =>
    rw [hFolded, Option.some_or] at hl
    rw [Option.some_or, hl]
  | none =>
    rw [hFolded, Option.none_or] at hl
    rw [Option.none_or, h.remembers a b l hl]

end Keeps

theorem keeps_remember (hNew : e.remembered? a b = none) (l : Lit) :
    e.Keeps (e.remember a b l) := by
  refine ⟨fun hCache => (Option.isSome_map ..).trans hCache, fun c d k hk => ?_⟩
  obtain ⟨cache, hCache, hFind⟩ := Option.bind_eq_some_iff.mp hk
  have hKey : Conjunctions.key a b ≠ Conjunctions.key c d := by
    intro hKey
    rw [remembered?, hCache, Option.bind_some, Conjunctions.find?, hKey] at hNew
    exact Option.some_ne_none k (hFind.symm.trans hNew)
  rw [remembered?, remember, hCache, Option.map_some, Option.bind_some, Conjunctions.find?_insert,
    if_neg hKey]
  exact hFind

theorem remembered?_remember (hCache : e.cache.isSome = true) (a b l : Lit) :
    (e.remember a b l).remembered? a b = some l := by
  obtain ⟨cache, hCache⟩ := Option.isSome_iff_exists.mp hCache
  rw [remembered?, remember, hCache, Option.map_some, Option.bind_some, Conjunctions.find?_insert,
    if_pos rfl]

theorem keeps_and (e : Encoder) (a b : Lit) : e.Keeps (e.and a b).2 := by
  rw [and_eq]
  cases h : e.known? a b with
  | some l => exact .refl e
  | none =>
    obtain ⟨_, hNew⟩ := Option.or_eq_none_iff.mp h
    exact (keeps_remember hNew e.fresh.1).trans (.of_cache_eq rfl)

theorem known?_and (hCache : e.cache.isSome = true) (a b : Lit) :
    (e.and a b).2.known? a b = some (e.and a b).1 := by
  rw [and_eq]
  cases h : e.known? a b with
  | some l => exact h
  | none =>
    obtain ⟨hFolded, _⟩ := Option.or_eq_none_iff.mp h
    rw [known?, hFolded, Option.none_or]
    exact remembered?_remember (e := e.fresh.2.add _) hCache a b _

/-- A conjunction that is asked for again has the same literal, and costs nothing. -/
theorem and_eq_of_keeps (hCache : e.cache.isSome = true) (h : (e.and a b).2.Keeps e') :
    e'.and a b = ((e.and a b).1, e') := by
  rw [and_eq e', h.known (known?_and hCache a b)]
  rfl

theorem cache_xor (e : Encoder) (a b : Lit) : (e.xor a b).2.cache = e.cache := by
  rw [Encoder.xor]
  split_ifs <;> rfl

theorem cache_flip (e : Encoder) (old f : Lit) : (e.flip old f).2.cache = e.cache := by
  rw [Encoder.flip]
  split_ifs <;> rfl

theorem cache_differsFrom (e : Encoder) (collected xs ys : List Lit) :
    (differsFrom collected e xs ys).2.cache = e.cache := by
  induction xs generalizing e collected ys with
  | nil => rw [differsFrom]; simp
  | cons x xs ih =>
    cases ys with
    | nil => rw [differsFrom]; simp
    | cons y ys =>
      rw [differsFrom]
      split_ifs
      · exact ih ..
      · rfl
      · exact ih ..
      · exact ih ..
      · exact ih ..
      · exact ih ..
      · exact ih ..

theorem keeps_flipIf (e : Encoder) (old c f : Lit) : e.Keeps (e.flipIf old c f).2 := by
  rw [flipIf]
  split_ifs
  · exact keeps_and e c f
  · exact keeps_and e c f
  · exact .of_cache_eq rfl

/-- Everything that can be done with an encoder. -/
inductive Operation where
  | call (k : Call)
  | add (clauses : Cnf)
  | equal (a b : Lit)
  | equalUnless (guard a b : Lit)
  | atMostOne (ls : List Lit)
  /-- The pool is lent out, and comes back in some other state. -/
  | lend (pool : VarPool)
  | restart (pool : VarPool)

namespace Operation

def apply (e : Encoder) : Operation → Encoder
  | call k => (({ encoder := e } : Workbench).perform k).2.encoder
  | add clauses => e.add clauses
  | equal a b => e.equal a b
  | equalUnless guard a b => e.equalUnless guard a b
  | atMostOne ls => e.atMostOne ls
  | lend pool => { e with pool }
  | restart pool => e.restart pool

/-- Remembered conjunctions are forgotten. -/
def forgets : Operation → Bool
  | call .clearCache | restart _ => true
  | _ => false

theorem keeps_apply {op : Operation} (h : op.forgets = false) (e : Encoder) :
    e.Keeps (op.apply e) := by
  cases op with
  | call k =>
    cases k with
    | fresh | take => exact .of_cache_eq rfl
    | and a b => exact keeps_and e a b
    | or a b => exact keeps_and e (-a) (-b)
    | xor a b => exact .of_cache_eq (cache_xor e a b)
    | flip old f => exact .of_cache_eq (cache_flip e old f)
    | flipIf old c f => exact keeps_flipIf e old c f
    | differs xs ys => exact .of_cache_eq (cache_differsFrom e [] xs ys)
    | clearCache => cases h
  | add _ | equal _ _ | equalUnless _ _ _ | atMostOne _ | lend _ => exact .of_cache_eq rfl
  | restart _ => cases h

theorem isSome_cache_apply (op : Operation) (h : e.cache.isSome = true) :
    (op.apply e).cache.isSome = true := by
  cases hForgets : op.forgets with
  | false => exact (op.keeps_apply hForgets e).caching h
  | true =>
    cases op with
    | call k =>
      cases k with
      | clearCache => exact (Option.isSome_map ..).trans h
      | _ => cases hForgets
    | restart _ => exact (Option.isSome_map ..).trans h
    | _ => cases hForgets

end Operation

end Encoder

end SoftError

import SoftError.Proofs.Circuit.Values
import SoftError.Proofs.Encoding.OneHot
import SoftError.Unrolling.Basic

/-!
# Symbolic runs have the values of concrete ones

Under an assignment that satisfies the clauses of its encoder, a table of literals has the
values of the concrete table that makes the same moves: evaluating the gates, and replacing
the value of a latch by that of a literal.
-/

namespace SoftError

theorem evaluation_holds {ρ : Assignment} (hρ : ρ ∈ pinned) : Evaluation (Lit.holds ρ) :=
  ⟨holds_ofBool hρ, Lit.holds_neg ρ⟩

namespace Table

variable {n m : Nat} {T : Table Lit}

/-- The entries are over variables below `n`. -/
def Below (n : Nat) (T : Table Lit) : Prop := T.All fun l => l.var < n

theorem Below.mono (h : T.Below n) (hm : n ≤ m) : T.Below m :=
  h.imp fun _ hl => lt_of_lt_of_le hl hm

theorem Below.set (h : T.Below n) (v : Nat) {l : Lit} (hl : l.var < n) : (T.set v l).Below n :=
  All.set h v hl

theorem Below.setAll (h : T.Below n) (ss : List Signal) {ls : List Lit}
    (hls : ∀ l ∈ ls, l.var < n) : (T.setAll ss ls).Below n :=
  All.setAll h ss hls

theorem var_complement_lt (l : Lit) (hl : l.var < n) : (-l).var < n :=
  (Lit.var_neg l).trans_lt hl

theorem Below.read (h : T.Below n) (s : Signal) : (T.read s).var < n :=
  All.read var_complement_lt h s

theorem Below.map_read (h : T.Below n) (ss : List Signal) : ∀ l ∈ ss.map T.read, l.var < n :=
  All.map_read var_complement_lt h ss

theorem Below.nextState (h : T.Below n) (c : Circuit) : ∀ l ∈ T.nextState c, l.var < n :=
  All.nextState var_complement_lt h c

theorem Below.alarm (h : T.Below n) (hn : 2 ≤ n) (c : Circuit) : (T.alarm c).var < n :=
  All.alarm var_complement_lt h hn c

theorem Below.advance (h : T.Below n) (c : Circuit) : (T.advance c).Below n :=
  All.advance var_complement_lt h c

theorem below_initial (hn : 2 ≤ n) (c : Circuit) : (Table.initial c : Table Lit).Below n := by
  refine all_initial (fun b => ?_) c
  change (Lit.ofBool b).var < n
  cases b <;> exact hn

theorem Below.values_congr (h : T.Below n) {ρ ρ' : Assignment} (hAgree : AgreeBelow n ρ ρ')
    {t : Table Bool} (ht : T.Values (Lit.holds ρ) t) : T.Values (Lit.holds ρ') t := by
  intro v
  rw [← hAgree.holds (h v)]
  exact ht v

end Table

namespace Unrolling

variable {M : Set Assignment} {e : Encoder} {T : Table Lit}

/-- The encoded table makes the given move under every assignment. -/
structure Performs (M : Set Assignment) (e : Encoder) (T : Table Lit) (r : Table Lit × Encoder)
    (move : Assignment → Table Bool → Table Bool) : Prop extends Encoder.Extends M e r.2 where
  bounded : r.1.Below r.2.nextVar
  values : ∀ ρ ∈ r.2.models M, ∀ t, T.Values (Lit.holds ρ) t →
    r.1.Values (Lit.holds ρ) (move ρ t)

theorem Performs.refl (h : e.Valid M) (hT : T.Below e.nextVar) :
    Performs M e T (T, e) fun _ t => t :=
  ⟨.refl h, hT, fun _ _ _ ht => ht⟩

theorem Performs.trans {r r' : Table Lit × Encoder} {f g : Assignment → Table Bool → Table Bool}
    (h : Performs M e T r f) (h' : Performs M r.2 r.1 r' g) :
    Performs M e T r' fun ρ t => g ρ (f ρ t) :=
  ⟨h.toExtends.trans h'.toExtends, h'.bounded,
    fun ρ hρ t ht => h'.values ρ hρ _ (h.values ρ (h'.subset hρ) t ht)⟩

theorem performs_evalGate (h : e.Valid M) (hT : T.Below e.nextVar) (g : Gate) :
    Performs M e T (evalGate (T, e) g) fun _ t => t.evalGate g := by
  have hAnd := h.and (hT.read g.left) (hT.read g.right)
  refine ⟨hAnd.toExtends, (hT.mono hAnd.le).set g.var hAnd.bounded, fun ρ hρ t ht => ?_⟩
  have hev := evaluation_holds (hAnd.valid.mem_pinned hρ)
  have hSet := ht.set g.var (e.and (T.read g.left) (T.read g.right)).1
  rw [hAnd.holds ρ hρ, ht.read hev, ht.read hev] at hSet
  exact hSet

theorem performs_gates (h : e.Valid M) (hT : T.Below e.nextVar) (gates : List Gate) :
    Performs M e T (gates.foldl evalGate (T, e)) fun _ t => gates.foldl Table.evalGate t := by
  induction gates generalizing T e with
  | nil => exact .refl h hT
  | cons g gates ih =>
    have hGate := performs_evalGate h hT g
    exact hGate.trans (ih hGate.valid hGate.bounded)

/-- Fresh variables are put into the table. -/
theorem performs_freshList (h : e.Valid M) (hT : T.Below e.nextVar) (ss : List Signal) (k : Nat) :
    Performs M e T (T.setAll ss (e.freshList k).1, (e.freshList k).2)
      fun ρ t => t.setAll ss ((List.range' e.nextVar k).map ρ) := by
  have hExtends := h.freshList_extends k
  have hBelow : ∀ l ∈ (e.freshList k).1, l.var < (e.freshList k).2.nextVar :=
    fun l hl => (OneHot.var_lt_of_mem_freshList hl).2
  refine ⟨hExtends, (hT.mono hExtends.le).setAll ss hBelow, fun ρ _ t ht => ?_⟩
  have hSet := ht.setAll ss (e.freshList k).1
  rwa [show (e.freshList k).1.map (Lit.holds ρ) = (List.range' e.nextVar k).map ρ from
    e.pool.map_holds_freshList k ρ] at hSet

variable {c : Circuit} {u : Unrolling}

theorem performs_step (h : e.Valid M) (hu : u.table.Below e.nextVar) :
    Performs M e u.table ((u.step c e).1.table, (u.step c e).2) fun _ t => t.settle c :=
  performs_gates h hu c.gates

end Unrolling

end SoftError

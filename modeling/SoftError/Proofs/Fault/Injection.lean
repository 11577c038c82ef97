import SoftError.Proofs.Fault.Choice
import SoftError.Proofs.Fault.Replay
import SoftError.Proofs.Unrolling.Inputs
import SoftError.Superfluous.Runs
import SoftError.Vulnerability.Incremental

/-!
# Injected faults

The latches of a symbolic run are inverted under the literals that select them. If these pick
one latch, then exactly that latch is inverted, as in the replay of a fault. The replay
inverts it before the inputs are applied and the symbolic run afterwards, which is the same.
-/

namespace SoftError

namespace Table

theorem Values.congr {α : Type} {ev : α → Bool} {T : Table α} {t t' : Table Bool}
    (h : T.Values ev t) (hEq : ∀ v, t.get v = t'.get v) : T.Values ev t' :=
  fun v => (h v).trans (hEq v)

variable {c : Circuit} {i : Nat} {latch : Latch}

theorem flip_eq (h : c.latches[i]? = some latch) (t : Table Bool) :
    t.flip c i = t.set latch.signal.var !(t.get latch.signal.var) := by
  rw [flip, flip?, h]
  rfl

/-- A latch that is inverted if `b` holds. -/
theorem Values.flip {α : Type} {ev : α → Bool} {T : Table α} {t : Table Bool}
    (h : T.Values ev t) (hLatch : c.latches[i]? = some latch) {x : α} {b : Bool}
    (hx : ev x = (t.get latch.signal.var ^^ b)) :
    (T.set latch.signal.var x).Values ev (if b then t.flip c i else t) := by
  have hSet := h.set latch.signal.var x
  rw [hx] at hSet
  cases b with
  | true =>
    rw [Bool.xor_true] at hSet
    rw [if_pos rfl, flip_eq hLatch]
    exact hSet
  | false =>
    rw [Bool.xor_false] at hSet
    refine hSet.congr fun v => ?_
    rw [get_set]
    split
    · rename_i hv
      rw [hv]
      rfl
    · rfl

/-- Inverting a latch and setting other variables can be interchanged. -/
theorem get_flip_setInputs (t : Table Bool) (i : Nat) (xs : List Bool) (v : Nat) :
    ((t.flip c i).setInputs c xs).get v = ((t.setInputs c xs).flip c i).get v := by
  cases hLatch : c.latches[i]? with
  | none =>
    have hLength := List.getElem?_eq_none_iff.mp hLatch
    rw [Fault.flip_of_length_le c hLength, Fault.flip_of_length_le c hLength]
  | some latch =>
    have hNotMem := c.latch_notMem_inputs (List.mem_of_getElem? hLatch)
    rw [flip_eq hLatch, flip_eq hLatch, get_set, setInputs, setInputs,
      get_setAll_of_notMem hNotMem]
    by_cases hv : latch.signal.var = v
    · rw [if_pos hv, ← hv, get_setAll_of_notMem hNotMem, get_set, if_pos rfl]
    · rw [if_neg hv]
      apply get_setAll_congr
      rw [get_set, if_neg hv]

/-- A latch may be inverted before the inputs are applied or afterwards. -/
theorem get_step_flip (t : Table Bool) (i : Nat) (xs : List Bool) (v : Nat) :
    ((t.flip c i).step c xs).get v = (((t.setInputs c xs).flip c i).settle c).get v :=
  settle_congr c (fun x _ => get_flip_setInputs t i xs x) v

/-- It may also be inverted once the gates are evaluated, if they are evaluated again. -/
theorem get_settle_flip_step (t : Table Bool) (i : Nat) (xs : List Bool) (v : Nat) :
    (((t.step c xs).flip c i).settle c).get v = ((t.flip c i).step c xs).get v := by
  rw [get_step_flip]
  refine settle_congr c (fun x hx => ?_) v
  have hSettled : ∀ w, w ∉ c.gates.map Gate.var →
      (t.step c xs).get w = (t.setInputs c xs).get w :=
    fun w hw => get_foldl_evalGate_of_notMem hw _
  cases hLatch : c.latches[i]? with
  | none =>
    have hLength := List.getElem?_eq_none_iff.mp hLatch
    rw [Fault.flip_of_length_le c hLength, Fault.flip_of_length_le c hLength, hSettled x hx]
  | some latch =>
    have hGate := c.latch_notMem_gates (List.mem_of_getElem? hLatch)
    rw [flip_eq hLatch, flip_eq hLatch, get_set, get_set, hSettled x hx, hSettled _ hGate]

/-- The step of the faulty run, with the fault injected once the inputs are applied. -/
theorem get_step_strike (f : Fault) {n : Nat} {b : Bool} (hb : b = decide (n = f.time))
    (t : Table Bool) (xs : List Bool) (v : Nat) :
    ((if b then (t.setInputs c xs).flip c f.latch else t.setInputs c xs).settle c).get v =
      ((f.strike c n t).step c xs).get v := by
  rw [Fault.strike]
  by_cases hTime : n = f.time
  · rw [hb, decide_eq_true hTime, if_pos rfl, if_pos hTime, get_step_flip]
  · rw [hb, decide_eq_false hTime, if_neg Bool.false_ne_true, if_neg hTime]
    rfl

end Table

namespace Unrolling

variable {c : Circuit} {M : Set Assignment} {e e' : Encoder} {u : Unrolling}

theorem table_setLatch {i : Nat} {latch : Latch} (h : c.latches[i]? = some latch) (l : Lit)
    (u : Unrolling) : (u.setLatch c i l).table = u.table.set latch.signal.var l := by
  rw [setLatch, setLatch?, Table.setLatch?, h]
  rfl

/-- A latch that is inverted if `φ` holds. -/
theorem performs_flip {k : Component} {latch : Latch} (hLatch : c.latches[k.index]? = some latch)
    (hSignal : k.signal = latch.signal) (hu : u.table.Below e.nextVar) {l : Lit}
    {φ : Assignment → Bool}
    (h : Encoder.Defines M e (l, e') fun ρ => (u.read k.signal).holds ρ ^^ φ ρ) :
    Performs M e u.table ((u.setLatch c k.index l).table, e') fun ρ t =>
      if φ ρ then t.flip c k.index else t := by
  rw [table_setLatch hLatch]
  refine ⟨h.toExtends, (hu.mono h.le).set _ h.bounded, fun ρ hρ t ht => ht.flip hLatch ?_⟩
  have hPlain := c.latch_plain (List.mem_of_getElem? hLatch)
  rw [h.holds ρ hρ, read, hSignal, Table.read_of_plain hPlain, ht]

open Vulnerability (Incremental.inject)

theorem performs_inject {flip : Lit} {ks : List (Component × Lit)} (h : e.Valid M)
    (hu : u.table.Below e.nextVar) (hFlip : flip.var < e.nextVar)
    (hSelectors : ∀ k ∈ ks, k.2.var < e.nextVar)
    (hLatches : ∀ k ∈ ks, ∃ l, c.latches[k.1.index]? = some l ∧ k.1.signal = l.signal) :
    Performs M e u.table ((Incremental.inject c flip ks u e).1.table,
        (Incremental.inject c flip ks u e).2) fun ρ t =>
      ks.foldl (fun t k => if k.2.holds ρ && flip.holds ρ then t.flip c k.1.index else t) t := by
  induction ks generalizing u e with
  | nil => exact .refl h hu
  | cons k ks ih =>
    obtain ⟨hSelector, hSelectors⟩ := List.forall_mem_cons.mp hSelectors
    obtain ⟨⟨latch, hLatch, hSignal⟩, hLatches⟩ := List.forall_mem_cons.mp hLatches
    have hHead := performs_flip hLatch hSignal hu
      (h.flipIf (hu.read k.1.signal) hFlip hSelector)
    have hLt : ∀ {n : Nat}, n < e.nextVar → n < _ := fun hn => lt_of_lt_of_le hn hHead.le
    exact hHead.trans (ih hHead.valid hHead.bounded (hLt hFlip)
      (fun k hk => hLt (hSelectors k hk)) hLatches)

/-- A step in which a fault may strike, under a literal that excludes the earlier ones. -/
structure Strikes (c : Circuit) (M : Set Assignment) (e : Encoder) (T : Table Lit)
    (earlier : List Lit) (flip : Lit) (r : Table Lit × Encoder)
    (move : Assignment → Table Bool → Table Bool) : Prop where
  valid : r.2.Valid M
  lt : e.nextVar < r.2.nextVar
  plain : e.cache = none → r.2.cache = none
  bounded : r.1.Below r.2.nextVar
  flipBelow : flip.var < r.2.nextVar
  subset : r.2.models M ⊆ e.models M
  exclusive : ∀ ρ ∈ r.2.models M, ∀ l ∈ earlier, ¬ (flip.holds ρ = true ∧ l.holds ρ = true)
  values : ∀ ρ ∈ r.2.models M, ∀ t, T.Values (Lit.holds ρ) t →
    r.1.Values (Lit.holds ρ) ((move ρ t).settle c)
  lift : ∀ ρ ∈ e.models M, ∀ b, (b = true → ∀ l ∈ earlier, l.holds ρ = false) →
    ∃ ρ' ∈ r.2.models M, AgreeBelow e.nextVar ρ ρ' ∧ flip.holds ρ' = b

theorem Performs.strikes {u : Unrolling} {T : Table Lit} {earlier : List Lit}
    {move : Assignment → Table Bool → Table Bool} (h : e.Valid M)
    (hEarlier : ∀ l ∈ earlier, l.var < e.nextVar)
    (hMove : Performs M e.fresh.2 T (u.table, e') move) :
    Strikes c M e T earlier e.fresh.1
      ((u.step c (e'.add (earlier.map fun l => [-e.fresh.1, -l]))).1.table,
        (u.step c (e'.add (earlier.map fun l => [-e.fresh.1, -l]))).2) move := by
  have hLe : e.nextVar + 1 ≤ e'.nextVar := hMove.le
  have hFlip : e.fresh.1.var < e'.nextVar := e.var_fresh.trans_lt hLe
  have hOld : ∀ l ∈ earlier, l.var < e'.nextVar := fun l hl =>
    (hEarlier l hl).trans (Nat.lt_of_succ_le hLe)
  have hValid := hMove.valid.addExclude hFlip hOld
  have hStep := performs_step (c := c) (u := u) hValid hMove.bounded
  have hSound : ∀ ρ ∈ (u.step c (e'.add (earlier.map fun l => [-e.fresh.1, -l]))).2.models M,
      ρ ∈ e'.models M ∧ ∀ l ∈ earlier, ¬ (e.fresh.1.holds ρ = true ∧ l.holds ρ = true) :=
    fun ρ hρ => Encoder.mem_models_addExclude.mp (hStep.subset hρ)
  refine ⟨hStep.valid, hLe.trans hStep.le, fun hNone => hStep.plain (hMove.plain hNone),
    hStep.bounded, lt_of_lt_of_le hFlip hStep.le, fun ρ hρ => hMove.subset (hSound ρ hρ).1,
    fun ρ hρ => (hSound ρ hρ).2, ?_, ?_⟩
  · intro ρ hρ t ht
    exact hStep.values ρ hρ _ (hMove.values ρ (hSound ρ hρ).1 t ht)
  · intro ρ hρ b hb
    obtain ⟨ρ₁, hρ₁, hAgree₁⟩ := hMove.lift _ (h.update_mem hρ b)
    have hValue : e.fresh.1.holds ρ₁ = b := by
      rw [← hAgree₁.holds (e.var_fresh.trans_lt (Nat.lt_succ_self _)), Encoder.holds_fresh,
        Function.update_self]
    have hAgree : AgreeBelow e.nextVar ρ ρ₁ :=
      (AgreeBelow.update _ ρ b).trans (hAgree₁.mono (Nat.le_succ _))
    have hMem : ρ₁ ∈ (e'.add (earlier.map fun l => [-e.fresh.1, -l])).models M := by
      refine Encoder.mem_models_addExclude.mpr ⟨hρ₁, fun l hl => ?_⟩
      rintro ⟨hTrue, hHolds⟩
      rw [← hAgree.holds (hEarlier l hl), hb (hValue.symm.trans hTrue) l hl] at hHolds
      cases hHolds
    obtain ⟨ρ₂, hρ₂, hAgree₂⟩ := hStep.lift ρ₁ hMem
    refine ⟨ρ₂, hρ₂, hAgree.trans (hAgree₂.mono (Nat.le_of_succ_le hLe)), ?_⟩
    rw [← hAgree₂.holds hFlip, hValue]

end Unrolling

section Flip

variable {α : Type} {c : Circuit} {ks : List α} {index : α → Nat} {strikes : α → Bool} {j : Nat}
  {flag : Bool}

theorem foldl_flip_of_notMem
    (hStrikes : ∀ k ∈ ks, strikes k = (decide (index k = j) && flag))
    (hNotMem : j ∉ ks.map index) (t : Table Bool) :
    ks.foldl (fun t k => if strikes k then t.flip c (index k) else t) t = t := by
  induction ks with
  | nil => rfl
  | cons k ks ih =>
    obtain ⟨hk, hStrikes⟩ := List.forall_mem_cons.mp hStrikes
    rw [List.map_cons, List.mem_cons, not_or] at hNotMem
    rw [decide_eq_false (Ne.symm hNotMem.1), Bool.false_and] at hk
    rw [List.foldl_cons, hk]
    exact ih hStrikes hNotMem.2

/-- Only the latch that is struck is inverted. -/
theorem foldl_flip (hNodup : (ks.map index).Nodup)
    (hStrikes : ∀ k ∈ ks, strikes k = (decide (index k = j) && flag))
    (hj : j ∈ ks.map index ∨ c.latches.length ≤ j) (t : Table Bool) :
    ks.foldl (fun t k => if strikes k then t.flip c (index k) else t) t =
      if flag then t.flip c j else t := by
  by_cases hMem : j ∈ ks.map index
  · clear hj
    induction ks generalizing t with
    | nil => cases hMem
    | cons k ks ih =>
      obtain ⟨hk, hRest⟩ := List.forall_mem_cons.mp hStrikes
      rw [List.map_cons, List.nodup_cons] at hNodup
      rw [List.foldl_cons]
      by_cases hEq : index k = j
      · rw [decide_eq_true hEq, Bool.true_and] at hk
        rw [foldl_flip_of_notMem hRest (hEq ▸ hNodup.1), hk, hEq]
      · rw [decide_eq_false hEq, Bool.false_and] at hk
        rw [hk]
        refine ih hNodup.2 hRest t ?_
        exact (List.mem_cons.mp hMem).resolve_left (Ne.symm hEq)
  · rw [foldl_flip_of_notMem hStrikes hMem, Fault.flip_of_length_le c (hj.resolve_left hMem),
      ite_self]

end Flip

theorem foldl_flip_of_picks {c : Circuit} {ks : List (Component × Lit)} {ρ : Assignment}
    {flip : Lit} {j : Nat} (hNodup : (ks.map fun k => k.1.index).Nodup)
    (hPicks : Picks ρ (selection ks) j)
    (hj : j ∈ ks.map (fun k => k.1.index) ∨ c.latches.length ≤ j) (t : Table Bool) :
    ks.foldl (fun t k => if k.2.holds ρ && flip.holds ρ then t.flip c k.1.index else t) t =
      if flip.holds ρ then t.flip c j else t :=
  foldl_flip hNodup (fun k hk => by rw [hPicks.holds hk]) hj t

/-- The tables of a symbolic step have the values of an observation. -/
structure Depicts (ρ : Assignment) (golden faulty : Table Lit) (o : Observation) : Prop where
  golden : golden.Values (Lit.holds ρ) o.golden
  faulty : faulty.Values (Lit.holds ρ) o.faulty

namespace Depicts

variable {ρ : Assignment} {golden faulty : Table Lit} {o : Observation}

theorem agrees_iff (h : Depicts ρ golden faulty o) (hρ : ρ ∈ pinned) (c : Circuit) :
    (golden.observed c).map (Lit.holds ρ) = (faulty.observed c).map (Lit.holds ρ) ↔
      o.agrees c = true := by
  have hev := evaluation_holds hρ
  rw [h.golden.observed hev, h.faulty.observed hev, Observation.agrees, decide_eq_true_eq]

theorem golden_alarm (h : Depicts ρ golden faulty o) (hρ : ρ ∈ pinned) (c : Circuit) :
    (golden.alarm c).holds ρ = o.golden.alarm c :=
  h.golden.alarm (evaluation_holds hρ) c

theorem faulty_alarm (h : Depicts ρ golden faulty o) (hρ : ρ ∈ pinned) (c : Circuit) :
    (faulty.alarm c).holds ρ = o.faulty.alarm c :=
  h.faulty.alarm (evaluation_holds hρ) c

end Depicts

end SoftError

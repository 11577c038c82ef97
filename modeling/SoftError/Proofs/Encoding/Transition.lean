import SoftError.Encoding.Transition
import SoftError.Proofs.Circuit.Settled
import SoftError.Proofs.Formula.Substitution

/-!
# Models of the transition relation

The clauses of the gates say that the gate equations hold. So a model that has the values of a
table on the inputs and latches has those of the evaluated gates on every signal of the circuit.
-/

namespace SoftError

theorem Signal.var_lit (s : Signal) : s.lit.var = s.var + 1 := by
  rw [lit, Lit.var_withSign, Lit.var_ofVar]

theorem Signal.holds_lit (s : Signal) (ρ : Assignment) :
    s.lit.holds ρ = Table.signalValue (fun x => ρ (x + 1)) s := by
  rw [lit, Lit.holds_withSign, Lit.var_ofVar, Table.signalValue]
  cases s.negated with
  | false => exact (Bool.xor_false _).symm
  | true => exact (Bool.xor_true _).symm

theorem Signal.holds_lit_of_plain {s : Signal} (h : s.negated = false) (ρ : Assignment) :
    s.lit.holds ρ = ρ (s.var + 1) := by
  rw [holds_lit, Table.signalValue_of_plain h]

theorem Signal.eval_lit_of_plain {s : Signal} (h : s.negated = false) (b : Bool) :
    s.lit.eval b = b := by
  rw [lit, Lit.eval, Lit.positive_withSign, h]
  rfl

namespace Transition

theorem ofCircuit_eq_ok {c : Circuit} {t : Transition} (h : ofCircuit c = .ok t) :
    ∃ alarm, c.alarm? = some alarm ∧ t.relation = c.gates.flatMap ofGate ∧
      t.inputs = c.inputs.map Signal.lit ∧ t.outputs = c.observed.map Signal.lit ∧
      t.alarm = alarm.lit ∧ t.state = (c.latches.map fun l => l.signal.lit) ∧
      t.next = c.latches.map fun l => l.next.lit := by
  rw [ofCircuit] at h
  split at h
  · cases h
  · rename_i alarm hAlarm
    cases h
    exact ⟨alarm, hAlarm, rfl, rfl, rfl, rfl, rfl, rfl⟩

theorem mem_models_ofGate {ρ : Assignment} {g : Gate} : ρ ∈ (ofGate g).models ↔
    g.out.lit.holds ρ = (g.left.lit.holds ρ && g.right.lit.holds ρ) := by
  simp only [ofGate, gateClauses, Cnf.mem_models_iff, Cnf.holds, Clause.holds, List.all_cons,
    List.all_nil, List.any_cons, List.any_nil, Lit.holds_neg]
  cases g.out.lit.holds ρ <;> cases g.left.lit.holds ρ <;> cases g.right.lit.holds ρ <;> decide

theorem mem_models_relation {ρ : Assignment} {gates : List Gate} :
    ρ ∈ Cnf.models (gates.flatMap ofGate) ↔
      ∀ g ∈ gates, g.out.lit.holds ρ = (g.left.lit.holds ρ && g.right.lit.holds ρ) := by
  induction gates with
  | nil => simp [Cnf.mem_models]
  | cons g gates ih =>
    rw [List.flatMap_cons, Cnf.mem_models_append, mem_models_ofGate, ih, List.forall_mem_cons]

variable {c : Circuit} {ρ : Assignment} {t : Table Bool}

/-- The literals of the relation are over variables that have a value. -/
theorem var_of_mem_relation {l : Lit} (h : l ∈ (c.gates.flatMap ofGate).flatten) :
    ∃ x ∈ c.named, l.var = x + 1 := by
  obtain ⟨clause, hClause, hl⟩ := List.mem_flatten.mp h
  obtain ⟨g, hg, hClause⟩ := List.mem_flatMap.mp hClause
  have hVar : l.var = g.out.lit.var ∨ l.var = g.left.lit.var ∨ l.var = g.right.lit.var := by
    simp only [ofGate, gateClauses, List.mem_cons, List.not_mem_nil, or_false] at hClause
    rcases hClause with rfl | rfl | rfl <;> simp at hl <;> grind [Lit.var_neg]
  rcases hVar with hVar | hVar | hVar <;> rw [hVar, Signal.var_lit]
  · exact ⟨_, c.mem_named_of_gates hg, rfl⟩
  · exact ⟨_, c.mem_named_of_uses (c.fanin_mem_uses hg (.inl rfl)), rfl⟩
  · exact ⟨_, c.mem_named_of_uses (c.fanin_mem_uses hg (.inr rfl)), rfl⟩

theorem var_mem_of_mem_relation {l : Lit} (h : l ∈ (c.gates.flatMap ofGate).flatten) :
    l.var ∈ c.named.map (· + 1) := by
  obtain ⟨x, hx, hVar⟩ := var_of_mem_relation h
  exact List.mem_map.mpr ⟨x, hx, hVar.symm⟩

/-- A signal has the value of its literal where the table has those of the assignment. -/
theorem holds_lit_eq_read (h : ∀ x ∈ c.named, ρ (x + 1) = t.get x) {s : Signal}
    (hs : s.var ∈ c.named) : s.lit.holds ρ = t.read s := by
  rw [Signal.holds_lit, Table.read_eq_signalValue, Table.signalValue, Table.signalValue, h _ hs]

/-- The gates are evaluated in a model of the relation. -/
theorem eq_get_settle (hρ : ρ ∈ Cnf.models (c.gates.flatMap ofGate))
    (hStart : ∀ x ∈ c.named, x ∉ c.gates.map Gate.var → ρ (x + 1) = t.get x) :
    ∀ x ∈ c.named, ρ (x + 1) = (t.settle c).get x := by
  refine Table.eq_settle_of_named c (v := fun x => ρ (x + 1)) hStart fun g hg => ?_
  rw [← Signal.holds_lit, ← Signal.holds_lit, ← Signal.holds_lit]
  exact mem_models_relation.mp hρ g hg

theorem holds_eq_read_settle (hρ : ρ ∈ Cnf.models (c.gates.flatMap ofGate))
    (hStart : ∀ x ∈ c.named, x ∉ c.gates.map Gate.var → ρ (x + 1) = t.get x) {s : Signal}
    (hs : s ∈ c.uses) : s.lit.holds ρ = (t.settle c).read s :=
  holds_lit_eq_read (eq_get_settle hρ hStart) (c.mem_named_of_uses hs)

/-- The evaluated gates are a model of the relation. -/
theorem mem_models_of_settle (h : ∀ x ∈ c.named, ρ (x + 1) = (t.settle c).get x) :
    ρ ∈ Cnf.models (c.gates.flatMap ofGate) := by
  refine mem_models_relation.mpr fun g hg => ?_
  rw [holds_lit_eq_read h (c.mem_named_of_gates hg),
    holds_lit_eq_read h (c.mem_named_of_uses (c.fanin_mem_uses hg (.inl rfl))),
    holds_lit_eq_read h (c.mem_named_of_uses (c.fanin_mem_uses hg (.inr rfl))),
    Table.read_of_plain (c.gate_plain hg)]
  exact Table.settle_consistent c t g hg

end Transition

end SoftError

import SoftError.Formula.Basic
import SoftError.Formula.LitSet

/-!
# Unit propagation and pure literals

Forced literals are propagated and pure literals satisfied until nothing changes. Of the
variables to keep, a forced one stays as a unit clause, and a pure one is left alone. A pass that
changes something removes an occurrence of a literal, so the passes come to an end.
-/

namespace SoftError.Cnf

/-- What the forced literals leave of a clause; `none` if one of them satisfies it. -/
def reduce (forced : LitSet) (c : Clause) : Option Clause :=
  if c.any fun l => l ∈ forced then none
  else some (c.filter fun l => -l ∉ forced)

theorem length_reduce_le {forced : LitSet} {c d : Clause} (h : reduce forced c = some d) :
    d.length ≤ c.length := by
  rw [reduce] at h
  split at h
  · cases h
  · cases h
    exact List.length_filter_le _ _

theorem length_reduce_lt {forced : LitSet} {c d : Clause} (h : reduce forced c = some d)
    (hNeg : (c.any fun l => -l ∈ forced) = true) : d.length < c.length := by
  rw [reduce] at h
  split at h
  · cases h
  · cases h
    obtain ⟨l, hl, hMem⟩ := List.any_eq_true.mp hNeg
    refine List.length_filter_lt_length_iff_exists.mpr ⟨l, hl, ?_⟩
    simpa using hMem

theorem length_pos_of_reduce_eq_none {forced : LitSet} {c : Clause}
    (h : reduce forced c = none) : 0 < c.length := by
  cases c with
  | nil => simp [reduce] at h
  | cons l c => simp

/-- One pass of unit propagation, which uses the literals forced earlier in the same pass;
`none` on a conflict. -/
def propagate : LitSet → Cnf → Option (Cnf × LitSet)
  | forced, [] => some ([], forced)
  | forced, c :: f =>
    match reduce forced c with
    | none => propagate forced f
    | some [] => none
    | some [l] => propagate (forced.insert l) f
    | some d => (propagate forced f).map fun (g, units) => (d :: g, units)

/-- Whether the pass finds anything to do: a clause that is satisfied, that loses a literal, or
that forces one. -/
def propagates : LitSet → Cnf → Bool
  | _, [] => false
  | forced, c :: f =>
    match reduce forced c with
    | none => true
    | some d => d.length ≤ 1 || (c.any fun l => -l ∈ forced) || propagates forced f

theorem two_le_length_of_ne {c : Clause} (hNil : c ≠ []) (hUnit : ∀ l, c ≠ [l]) :
    2 ≤ c.length := by
  rcases c with _ | ⟨k, _ | ⟨l, c⟩⟩
  · exact absurd rfl hNil
  · exact absurd rfl (hUnit k)
  · simp

theorem size_propagate_le {forced units : LitSet} {f g : Cnf}
    (h : propagate forced f = some (g, units)) : g.size ≤ f.size := by
  fun_induction propagate forced f generalizing g with
  | case1 => cases h; exact Nat.le_refl _
  | case2 forced c f _ ih =>
    have := ih h
    rw [size_cons]
    omega
  | case3 => cases h
  | case4 forced c f l _ ih =>
    have := ih h
    rw [size_cons]
    omega
  | case5 forced c f d _ _ hReduce ih =>
    obtain ⟨⟨g', units'⟩, hRest, hEq⟩ := Option.map_eq_some_iff.mp h
    cases hEq
    have := ih hRest
    have := length_reduce_le hReduce
    rw [size_cons, size_cons]
    omega

theorem size_propagate_lt {forced units : LitSet} {f g : Cnf}
    (h : propagate forced f = some (g, units)) (hChanged : propagates forced f = true) :
    g.size < f.size := by
  fun_induction propagate forced f generalizing g with
  | case1 => cases hChanged
  | case2 forced c f hReduce _ =>
    have := length_pos_of_reduce_eq_none hReduce
    have := size_propagate_le h
    rw [size_cons]
    omega
  | case3 => cases h
  | case4 forced c f l hReduce _ =>
    have hLength : 1 ≤ c.length := length_reduce_le hReduce
    have := size_propagate_le h
    rw [size_cons]
    omega
  | case5 forced c f d hNil hUnit hReduce ih =>
    obtain ⟨⟨g', units'⟩, hRest, hEq⟩ := Option.map_eq_some_iff.mp h
    cases hEq
    have hRestSize := size_propagate_le hRest
    have hLength := length_reduce_le hReduce
    rw [size_cons, size_cons]
    have hLong := two_le_length_of_ne hNil hUnit
    rw [propagates, hReduce] at hChanged
    simp only [Bool.or_eq_true, decide_eq_true_eq] at hChanged
    rcases hChanged with (hShort | hNeg) | hChanged
    · omega
    · have := length_reduce_lt hReduce (by simpa using hNeg)
      omega
    · have := ih hRest hChanged
      omega

/-- The literals that occur in a formula. -/
def occurring (f : Cnf) : LitSet := f.foldl (fun s c => c.foldl LitSet.insert s) {}

/-- Whether `l`'s variable may be eliminated and does not occur in the other polarity. -/
def isPure (keep : Std.TreeSet Nat) (occurring : LitSet) (l : Lit) : Bool :=
  l.var ∉ keep && -l ∉ occurring

def dropPure (keep : Std.TreeSet Nat) (f : Cnf) : Cnf :=
  let occurring := f.occurring
  f.filter fun c => !c.any (isPure keep occurring)

/-- Whether some literal of the formula is pure. -/
def hasPure (keep : Std.TreeSet Nat) (f : Cnf) : Bool :=
  let occurring := f.occurring
  f.any fun c => c.any (isPure keep occurring)

theorem size_filter_le (p : Clause → Bool) (f : Cnf) : size (f.filter p) ≤ f.size := by
  induction f with
  | nil => exact Nat.le_refl _
  | cons c f ih =>
    rw [List.filter_cons]
    split <;> simp only [size_cons] <;> omega

theorem size_filter_lt {p : Clause → Bool} {c : Clause} {f : Cnf} (hc : c ∈ f)
    (hp : p c = false) (hNil : c ≠ []) : size (f.filter p) < f.size := by
  induction f with
  | nil => cases hc
  | cons d f ih =>
    rw [List.filter_cons, size_cons]
    have := size_filter_le p f
    rcases List.mem_cons.mp hc with rfl | hc
    · have := List.length_pos_iff.mpr hNil
      rw [hp, if_neg Bool.false_ne_true]
      omega
    · have := ih hc
      split
      · rw [size_cons]
        omega
      · omega

theorem size_dropPure_le {keep : Std.TreeSet Nat} {f : Cnf} : (dropPure keep f).size ≤ f.size :=
  size_filter_le _ f

theorem size_dropPure_lt {keep : Std.TreeSet Nat} {f : Cnf} (h : hasPure keep f = true) :
    (dropPure keep f).size < f.size := by
  obtain ⟨c, hc, hAny⟩ := List.any_eq_true.mp h
  obtain ⟨l, hl, hPure⟩ := List.any_eq_true.mp hAny
  refine size_filter_lt hc ?_ (List.ne_nil_of_mem hl)
  rw [Bool.not_eq_false', List.any_eq_true]
  exact ⟨l, hl, hPure⟩

/-- The unit clauses of the forced literals to keep, by ascending variable. -/
def keptUnits (keep : Std.TreeSet Nat) (forced : LitSet) : Cnf :=
  (Ascending.ofList (fun a b => decide (a.var < b.var))
    (forced.toList.filter fun l => l.var ∈ keep)).map fun l => [l]

/-- A pass that has anything to do removes an occurrence of a literal. -/
theorem size_lt_of_changed {keep : Std.TreeSet Nat} {forced units : LitSet} {f g : Cnf}
    (h : propagate forced f = some (g, units))
    (hChanged : (propagates forced f || hasPure keep g) = true) :
    (dropPure keep g).size < f.size := by
  rcases (Bool.or_eq_true _ _).mp hChanged with hPropagates | hPure
  · exact Nat.lt_of_le_of_lt size_dropPure_le (size_propagate_lt h hPropagates)
  · exact Nat.lt_of_lt_of_le (size_dropPure_lt hPure) (size_propagate_le h)

/-- Propagates and eliminates until a pass changes nothing. -/
def eliminateFrom (keep : Std.TreeSet Nat) (forced : LitSet) (f : Cnf) : Cnf :=
  match _h : propagate forced f with
  | none => unsat
  | some (g, units) =>
    if _hChanged : propagates forced f || hasPure keep g then
      eliminateFrom keep units (dropPure keep g)
    else g ++ keptUnits keep units
termination_by f.size
decreasing_by exact size_lt_of_changed _h _hChanged

def eliminate (keep : List Nat) (f : Cnf) : Cnf := eliminateFrom (.ofList keep) {} f

end SoftError.Cnf

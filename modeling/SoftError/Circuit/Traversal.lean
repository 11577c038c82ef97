import SoftError.Circuit.Order

/-!
# The traversal of the gates

The gates are sorted by a loop over a stack. A gate that comes up for the first time is marked as
seen and goes back on the stack, below its fanins; when it comes up again, they are done and it is
listed. The marks are kept from one root to the next. The gates that are seen and not done are
those on the path of the depth-first search, so the loop gives the order of evaluation.
-/

namespace SoftError.Netlist

/-- A gate on the stack, to be entered or, the last time, to be left. -/
structure Task (gates : List Gate) where
  gate : Gate
  mem : gate ∈ gates
  last : Bool

structure Marks where
  seen : List Gate := []
  done : List Gate := []
  order : List Gate := []

/-- The gate that drives a signal, unless there is none or it is done. -/
def pending (gates done : List Gate) (s : Signal) : List (Task gates) :=
  match h : gateOf? gates s.var with
  | none => []
  | some g => if g ∈ done then [] else [⟨g, mem_of_gateOf? h, false⟩]

theorem pending_of_none {gates done : List Gate} {s : Signal} (h : gateOf? gates s.var = none) :
    pending gates done s = [] := by
  unfold pending
  split <;> simp_all

theorem pending_of_some {gates done : List Gate} {s : Signal} {g : Gate}
    (h : gateOf? gates s.var = some g) :
    pending gates done s = if g ∈ done then [] else [⟨g, mem_of_gateOf? h, false⟩] := by
  unfold pending
  split
  · simp_all
  · rename_i d hd
    obtain rfl : d = g := Option.some.inj (hd.symm.trans h)
    rfl

theorem length_pending_le (gates done : List Gate) (s : Signal) :
    (pending gates done s).length ≤ 1 := by
  unfold pending
  split
  · exact Nat.zero_le _
  · split <;> simp

/-- The gates that have not been entered. -/
def unseen (gates seen : List Gate) : List Gate := gates.filter fun g => g ∉ seen

theorem length_unseen_lt {gates seen : List Gate} {g : Gate} (hMem : g ∈ gates)
    (hNew : g ∉ seen) : (unseen gates (g :: seen)).length < (unseen gates seen).length := by
  have hFilter : unseen gates (g :: seen) = (unseen gates seen).filter fun d => d ≠ g := by
    rw [unseen, unseen, List.filter_filter]
    refine List.filter_congr fun d _ => ?_
    simp
  rw [hFilter, List.length_filter_lt_length_iff_exists]
  exact ⟨g, List.mem_filter.mpr ⟨hMem, by simpa using hNew⟩, by simp⟩

/-- Works on the stack until it is empty. Of the fanins of a gate the right one is on top. -/
def work (gates : List Gate) (m : Marks) : List (Task gates) → Except CircuitError Marks
  | [] => .ok m
  | t :: stack =>
    if t.last then
      work gates { m with done := t.gate :: m.done, order := m.order ++ [t.gate] } stack
    else if t.gate ∈ m.done then work gates m stack
    else if _hSeen : t.gate ∈ m.seen then .error (.combinationalCycle t.gate.out)
    else
      work gates { m with seen := t.gate :: m.seen }
        (pending gates m.done t.gate.right ++
          (pending gates m.done t.gate.left ++ { t with last := true } :: stack))
termination_by stack => 3 * (unseen gates m.seen).length + stack.length
decreasing_by
  · simp
  · simp
  · have := length_unseen_lt t.mem _hSeen
    have := length_pending_le gates m.done t.gate.right
    have := length_pending_le gates m.done t.gate.left
    simp only [List.length_append, List.length_cons]
    omega

/-- The gates in order of evaluation, each of them a root of the traversal. -/
def sortGates (gates : List Gate) : Except CircuitError (List Gate) := do
  let m ← gates.attach.foldlM (fun m g => work gates m [⟨g.1, g.2, false⟩]) {}
  return m.order

variable {gates done order : List Gate} {path : List Nat} {depth : Nat} {m : Marks} {g d : Gate}

section Work

theorem work_last (hg : g ∈ gates) (stack : List (Task gates)) :
    work gates m (⟨g, hg, true⟩ :: stack) =
      work gates { m with done := g :: m.done, order := m.order ++ [g] } stack := by
  rw [work, if_pos rfl]

theorem work_done (hg : g ∈ gates) (hDone : g ∈ m.done) (stack : List (Task gates)) :
    work gates m (⟨g, hg, false⟩ :: stack) = work gates m stack := by
  rw [work, if_neg Bool.false_ne_true, if_pos hDone]

theorem work_seen (hg : g ∈ gates) (hDone : g ∉ m.done) (hSeen : g ∈ m.seen)
    (stack : List (Task gates)) :
    work gates m (⟨g, hg, false⟩ :: stack) = .error (.combinationalCycle g.out) := by
  rw [work, if_neg Bool.false_ne_true, if_neg hDone, dif_pos hSeen]

theorem work_new (hg : g ∈ gates) (hDone : g ∉ m.done) (hSeen : g ∉ m.seen)
    (stack : List (Task gates)) :
    work gates m (⟨g, hg, false⟩ :: stack) = work gates { m with seen := g :: m.seen }
      (pending gates m.done g.right ++ (pending gates m.done g.left ++ ⟨g, hg, true⟩ :: stack)) := by
  rw [work, if_neg Bool.false_ne_true, if_neg hDone, dif_neg hSeen]

end Work

section Path

theorem length_le_of_nodup {l l' : List Nat} (h : l.Nodup) (hSubset : ∀ v ∈ l, v ∈ l') :
    l.length ≤ l'.length := by
  induction l generalizing l' with
  | nil => exact Nat.zero_le _
  | cons v l ih =>
    obtain ⟨hNew, hRest⟩ := List.nodup_cons.mp h
    have hv := hSubset v List.mem_cons_self
    have hErase : l.length ≤ (l'.erase v).length := by
      refine ih hRest fun w hw => ?_
      have hNe : w ≠ v := fun hEq => hNew (hEq ▸ hw)
      exact (List.mem_erase_of_ne hNe).mpr (hSubset w (List.mem_cons_of_mem v hw))
    have := List.length_pos_of_mem hv
    rw [List.length_erase_of_mem hv] at hErase
    rw [List.length_cons]
    omega

/-- A path of gates without repetition, which leaves depth enough for the others. -/
structure IsPath (gates : List Gate) (depth : Nat) (path : List Nat) : Prop where
  nodup : path.Nodup
  subset : ∀ v ∈ path, v ∈ gates.map Gate.var
  length_lt : gates.length < depth + path.length

theorem IsPath.depth_pos (h : IsPath gates depth path) : 0 < depth := by
  have hLength := length_le_of_nodup h.nodup h.subset
  have := h.length_lt
  rw [List.length_map] at hLength
  omega

theorem IsPath.cons (h : IsPath gates (depth + 1) path) (hg : g ∈ gates) (hNew : g.var ∉ path) :
    IsPath gates depth (g.var :: path) where
  nodup := List.nodup_cons.mpr ⟨hNew, h.nodup⟩
  subset v hv := by
    rcases List.mem_cons.mp hv with rfl | hv
    · exact List.mem_map_of_mem hg
    · exact h.subset v hv
  length_lt := by
    have := h.length_lt
    rw [List.length_cons]
    omega

end Path

/-- The marks of a search that has listed `order` and is on its way along `path`. -/
structure Tracks (gates : List Gate) (path : List Nat) (m : Marks) (order : List Gate) : Prop where
  order_eq : m.order = order
  mem_done : ∀ g, g ∈ m.done ↔ g ∈ order
  mem_seen : ∀ g ∈ gates, g ∈ m.seen ↔ g ∈ order ∨ g.var ∈ path

section Tracks

variable (hDistinct : (gates.map Gate.var).Nodup)
include hDistinct

theorem Tracks.enter (h : Tracks gates path m order) (hg : g ∈ gates) :
    Tracks gates (g.var :: path) { m with seen := g :: m.seen } order where
  order_eq := h.order_eq
  mem_done := h.mem_done
  mem_seen d hd := by
    have hVar : d.var = g.var ↔ d = g :=
      ⟨eq_of_var_eq hDistinct hd hg, congrArg Gate.var⟩
    rw [List.mem_cons, List.mem_cons, h.mem_seen d hd, hVar]
    exact or_left_comm

theorem Tracks.leave (h : Tracks gates (g.var :: path) m order) (hg : g ∈ gates) :
    Tracks gates path { m with done := g :: m.done, order := m.order ++ [g] }
      (order ++ [g]) where
  order_eq := congrArg (· ++ [g]) h.order_eq
  mem_done d := by
    rw [List.mem_cons, h.mem_done, List.mem_append, List.mem_singleton, or_comm]
  mem_seen d hd := by
    have hVar : d.var = g.var ↔ d = g :=
      ⟨eq_of_var_eq hDistinct hd hg, congrArg Gate.var⟩
    rw [h.mem_seen d hd, List.mem_cons, List.mem_append, List.mem_singleton, hVar, or_assoc]

end Tracks

/-- What the loop makes of a part of the stack, given what the search makes of it. Both fail with
the same error, or the loop goes on with the rest of the stack. -/
inductive Follows (gates : List Gate) (path : List Nat) (order : List Gate)
    (stack : List (Task gates)) : Except CircuitError (List Gate) → Except CircuitError Marks → Prop
  | failed (e : CircuitError) : Follows gates path order stack (.error e) (.error e)
  | listed {order' : List Gate} {m : Marks} (h : Tracks gates path m order')
      (hKept : ∀ g ∈ order, g ∈ order') :
      Follows gates path order stack (.ok order') (work gates m stack)

/-- The fanins may have been looked up earlier, when less was done. -/
theorem follows_visitDriver (hPath : IsPath gates depth path)
    (hVisit : ∀ g (hg : g ∈ gates) stack, Follows gates path order stack
      (visit gates depth path order g) (work gates m (⟨g, hg, false⟩ :: stack)))
    (h : Tracks gates path m order) (hDone : ∀ g ∈ done, g ∈ order) (s : Signal)
    (stack : List (Task gates)) :
    Follows gates path order stack (visitDriver (visit gates depth path) gates order s)
      (work gates m (pending gates done s ++ stack)) := by
  unfold visitDriver
  cases hDriver : gateOf? gates s.var with
  | none =>
    rw [pending_of_none hDriver]
    exact .listed h fun _ hg => hg
  | some d =>
    rw [pending_of_some hDriver]
    dsimp only
    by_cases hMem : d ∈ done
    · obtain ⟨k, rfl⟩ : ∃ k, depth = k + 1 := Nat.exists_eq_add_one.mpr hPath.depth_pos
      rw [if_pos hMem, visit, if_pos (hDone d hMem)]
      exact .listed h fun _ hg => hg
    · rw [if_neg hMem]
      exact hVisit d _ stack

/-- The loop visits a gate as the search does. -/
theorem follows_visit (hDistinct : (gates.map Gate.var).Nodup) (hPath : IsPath gates depth path)
    (h : Tracks gates path m order) (hg : g ∈ gates) (stack : List (Task gates)) :
    Follows gates path order stack (visit gates depth path order g)
      (work gates m (⟨g, hg, false⟩ :: stack)) := by
  induction depth generalizing path m order g stack with
  | zero => exact absurd hPath.depth_pos (Nat.lt_irrefl 0)
  | succ depth ih =>
    rw [visit]
    split
    · rename_i hListed
      rw [work_done hg ((h.mem_done g).mpr hListed)]
      exact .listed h fun _ hd => hd
    · rename_i hNew
      have hDone : g ∉ m.done := mt (h.mem_done g).mp hNew
      split
      · rename_i hAgain
        rw [work_seen hg hDone ((h.mem_seen g hg).mpr (.inr hAgain))]
        exact .failed _
      · rename_i hAhead
        have hSeen : g ∉ m.seen := fun hSeen =>
          ((h.mem_seen g hg).mp hSeen).elim hNew hAhead
        have hPath := hPath.cons hg hAhead
        have hEnter := h.enter hDistinct hg
        rw [work_new hg hDone hSeen]
        have hRight := follows_visitDriver hPath (fun d hd => ih hPath hEnter hd) hEnter
          (fun d => (h.mem_done d).mp) g.right
          (pending gates m.done g.left ++ ⟨g, hg, true⟩ :: stack)
        generalize visitDriver _ gates order g.right = right at hRight ⊢
        generalize work gates _ _ = worked at hRight ⊢
        cases hRight with
        | failed e => exact .failed e
        | @listed order₁ m₁ h₁ hKept₁ =>
          have hLeft := follows_visitDriver hPath (fun d hd => ih hPath h₁ hd) h₁
            (fun d hd => hKept₁ d ((h.mem_done d).mp hd)) g.left (⟨g, hg, true⟩ :: stack)
          simp only [bind, Except.bind]
          generalize visitDriver _ gates order₁ g.left = left at hLeft ⊢
          generalize work gates _ _ = worked at hLeft ⊢
          cases hLeft with
          | failed e => exact .failed e
          | @listed order₂ m₂ h₂ hKept₂ =>
            rw [work_last hg]
            exact .listed (h₂.leave hDistinct hg) fun d hd =>
              List.mem_append_left _ (hKept₂ d (hKept₁ d hd))

theorem foldlM_work (hDistinct : (gates.map Gate.var).Nodup) (h : Tracks gates [] m order)
    (roots : List { g // g ∈ gates }) :
    (roots.foldlM (fun m g => work gates m [⟨g.1, g.2, false⟩]) m).map Marks.order =
      (roots.map Subtype.val).foldlM (visit gates (gates.length + 1) []) order := by
  induction roots generalizing m order with
  | nil => exact congrArg Except.ok h.order_eq
  | cons g roots ih =>
    have hPath : IsPath gates (gates.length + 1) [] :=
      ⟨List.nodup_nil, fun v hv => absurd hv List.not_mem_nil, by simp⟩
    have hVisit := follows_visit hDistinct hPath h g.2 []
    rw [List.foldlM_cons, List.map_cons, List.foldlM_cons]
    generalize visit gates _ _ order g.1 = visited at hVisit ⊢
    generalize work gates m _ = worked at hVisit ⊢
    cases hVisit with
    | failed e => rfl
    | listed h _ =>
      rw [work]
      exact ih h

/-- The loop and the depth-first search give the same order, or the same error. -/
theorem sortGates_eq (hDistinct : (gates.map Gate.var).Nodup) :
    sortGates gates = evaluationOrder gates := by
  have hStart : Tracks gates [] {} [] := ⟨rfl, fun _ => Iff.rfl, fun _ _ => by simp⟩
  have hRoots := foldlM_work hDistinct hStart gates.attach
  rw [List.attach_map_subtype_val] at hRoots
  rw [evaluationOrder, ← hRoots, sortGates]
  cases gates.attach.foldlM (fun m g => work gates m [⟨g.1, g.2, false⟩]) {} <;> rfl

end SoftError.Netlist

import SoftError.Buckets
import SoftError.Diagram.Basic

/-!
# Diagrams with shared nodes

Connectives of diagrams, computed so that equal parts of a result are one object in memory.
A cache has the nodes built so far and the pairs combined so far, both by their digests, and
every entry comes with the proof that it is right: the results are those of `combine`.
-/

namespace SoftError.Diagram

theorem relabel_leaf (p : Bool → Bool) (b : Bool) : (leaf b).relabel p = leaf (p b) := by
  rw [relabel]
  cases hFalse : p false <;> cases hTrue : p true <;> cases b <;> simp [complement, hFalse, hTrue]

theorem relabel_const {p : Bool → Bool} (h : p false = p true) (f : Diagram) :
    f.relabel p = leaf (p false) := by
  rw [relabel, ← h]
  cases p false <;> rfl

theorem relabel_node {p : Bool → Bool} (h : p false ≠ p true) (v : Nat) (low high : Diagram) :
    (node v low high).relabel p = node v (low.relabel p) (high.relabel p) := by
  simp only [relabel]
  cases hFalse : p false <;> cases hTrue : p true <;> simp_all [complement]

theorem combine_leaf_left (op : Bool → Bool → Bool) (a : Bool) (g : Diagram) :
    combine op (leaf a) g = g.relabel (op a) := by
  rw [combine]

theorem combine_leaf_right (op : Bool → Bool → Bool) (f : Diagram) (b : Bool) :
    combine op f (leaf b) = f.relabel (op · b) := by
  cases f with
  | leaf a => rw [combine, relabel_leaf, relabel_leaf]
  | node v low high => rw [combine]

theorem relabel_id {p : Bool → Bool} (hFalse : p false = false) (hTrue : p true = true)
    (f : Diagram) : f.relabel p = f := by
  rw [relabel, hFalse, hTrue]

/-- A computed combination. -/
abbrev Combined (op : Bool → Bool → Bool) (f g : Diagram) := { r : Diagram // r = combine op f g }

/-- A combination that is remembered. -/
structure Entry (op : Bool → Bool → Bool) where
  left : Diagram
  right : Diagram
  value : Combined op left right

/-- The nodes and the combinations that are remembered. -/
structure Cache (op : Bool → Bool → Bool) where
  nodes : Buckets Diagram := {}
  entries : Buckets (Entry op) := {}

namespace Cache

variable {op : Bool → Bool → Bool}

/-- The remembered node that equals `f`, which is `f` itself if there was none. -/
def share (f : Diagram) (c : Cache op) : { r : Diagram // r = f } × Cache op :=
  let { nodes, entries } := c
  match nodes.findSome? f.digest fun g => if h : g = f then some ⟨g, h⟩ else none with
  | some r => (r, { nodes, entries })
  | none => (⟨f, rfl⟩, { nodes := nodes.insert f.digest f, entries })

/-- The node of two branches, unless they are equal. -/
def branch (v : Nat) (low high : Diagram) (c : Cache op) :
    { r : Diagram // r = Diagram.branch v low high } × Cache op :=
  if h : low = high then (⟨low, by simp [Diagram.branch, h]⟩, c)
  else
    let (r, c) := c.share (node v low high)
    (⟨r.1, by rw [r.2, Diagram.branch, if_neg h]⟩, c)

/-- The value of an entry, if it is one for `f` and `g`. -/
def valueFor? (f g : Diagram) (e : Entry op) : Option (Combined op f g) :=
  if h : e.left = f ∧ e.right = g then some ⟨e.value.1, by rw [e.value.2, h.1, h.2]⟩ else none

/-- By which combinations of `f` and `g` are found. -/
def number (f g : Diagram) : Nat := f.digest * 1000003 + g.digest

/-- Whether a combination is a leaf at first sight. Such combinations are not remembered. -/
def isLeaf (op : Bool → Bool → Bool) : Diagram → Diagram → Bool
  | leaf _, leaf _ => true
  | leaf a, node _ _ _ => op a false = op a true
  | node _ _ _, leaf b => op false b = op true b
  | node _ _ _, node _ _ _ => false

/-- The remembered combination of `f` and `g`, which is computed if there is none. -/
@[specialize]
def remember (f g : Diagram) (compute : Cache op → Combined op f g × Cache op) (c : Cache op) :
    Combined op f g × Cache op :=
  if isLeaf op f g then compute c
  else
    match c.entries.findSome? (number f g) (valueFor? f g) with
    | some r => (r, c)
    | none =>
      let (r, { nodes, entries }) := compute c
      (r, { nodes, entries := entries.insert (number f g) ⟨f, g, r⟩ })

end Cache

/-- Combines two diagrams with the help of a cache, down to a depth beyond which it does
without. -/
def combineWith (op : Bool → Bool → Bool) :
    (depth : Nat) → (f g : Diagram) → Cache op → Combined op f g × Cache op
  | 0, f, g, c => (⟨combine op f g, rfl⟩, c)
  | depth + 1, f, g, c => c.remember f g fun c =>
    match hf : f, hg : g with
    | leaf a, leaf b => (⟨leaf (op a b), by rw [combine_leaf_left, relabel_leaf]⟩, c)
    | leaf a, node w low high =>
      if h : op a false = op a true then
        (⟨leaf (op a false), by rw [combine_leaf_left, relabel_const h]⟩, c)
      else
        let (l, c) := combineWith op depth f low c
        let (r, c) := combineWith op depth f high c
        let (d, c) := c.share (node w l.1 r.1)
        (⟨d.1, by
          rw [d.2, l.2, r.2, hf, combine_leaf_left, combine_leaf_left, combine_leaf_left,
            relabel_node h]⟩, c)
    | node v low high, leaf b =>
      if h : op false b = op true b then
        (⟨leaf (op false b), by rw [combine_leaf_right, relabel_const h]⟩, c)
      else
        let (l, c) := combineWith op depth low g c
        let (r, c) := combineWith op depth high g c
        let (d, c) := c.share (node v l.1 r.1)
        (⟨d.1, by
          rw [d.2, l.2, r.2, hg, combine_leaf_right, combine_leaf_right, combine_leaf_right,
            relabel_node (p := (op · b)) h]⟩, c)
    | node v low high, node w low' high' =>
      if h : v < w then
        let (l, c) := combineWith op depth low g c
        let (r, c) := combineWith op depth high g c
        let (d, c) := c.branch v l.1 r.1
        (⟨d.1, by rw [d.2, l.2, r.2, hg, combine, if_pos h]⟩, c)
      else if h' : w < v then
        let (l, c) := combineWith op depth f low' c
        let (r, c) := combineWith op depth f high' c
        let (d, c) := c.branch w l.1 r.1
        (⟨d.1, by rw [d.2, l.2, r.2, hf, combine, if_neg h, if_pos h']⟩, c)
      else
        let (l, c) := combineWith op depth low low' c
        let (r, c) := combineWith op depth high high' c
        let (d, c) := c.branch v l.1 r.1
        (⟨d.1, by rw [d.2, l.2, r.2, combine, if_neg h, if_neg h']⟩, c)

/-- Combines two diagrams with an empty cache. No path in a pair of diagrams is longer than
their variables allow. -/
def combineShared (op : Bool → Bool → Bool) (f g : Diagram) : Combined op f g :=
  (combineWith op (2 * variableBound) f g {}).1

/-- Whether a connective with `a` on its left gives back its right side. -/
def isNeutral (op : Bool → Bool → Bool) (a : Bool) : Bool := !op a false && op a true

/-- The diagram of a connective of two diagrams, with shared nodes. -/
def apply (op : Bool → Bool → Bool) (f g : Diagram) : Diagram :=
  match f, g with
  | leaf a, g => if isNeutral op a then g else (combineShared op (leaf a) g).1
  | f, leaf b => if isNeutral (fun x y => op y x) b then f else (combineShared op f (leaf b)).1
  | f, g => (combineShared op f g).1

theorem apply_eq (op : Bool → Bool → Bool) (f g : Diagram) : apply op f g = combine op f g := by
  unfold apply
  split
  · split
    · rename_i h
      simp only [isNeutral, Bool.and_eq_true, Bool.not_eq_true'] at h
      rw [combine_leaf_left, relabel_id h.1 h.2]
    · exact (combineShared op _ _).2
  · split
    · rename_i h
      simp only [isNeutral, Bool.and_eq_true, Bool.not_eq_true'] at h
      rw [combine_leaf_right, relabel_id h.1 h.2]
    · exact (combineShared op _ _).2
  · exact (combineShared op _ _).2

@[simp]
theorem eval_apply (ρ : Assignment) (op : Bool → Bool → Bool) (f g : Diagram) :
    (apply op f g).eval ρ = op (f.eval ρ) (g.eval ρ) := by
  rw [apply_eq, eval_combine]

def and (f g : Diagram) : Diagram := apply Bool.and f g

def or (f g : Diagram) : Diagram := apply Bool.or f g

def xor (f g : Diagram) : Diagram := apply Bool.xor f g

def not (f : Diagram) : Diagram := apply Bool.xor f (leaf true)

@[simp]
theorem eval_and (ρ : Assignment) (f g : Diagram) :
    (f.and g).eval ρ = (f.eval ρ && g.eval ρ) := by
  simp [and]

@[simp]
theorem eval_or (ρ : Assignment) (f g : Diagram) :
    (f.or g).eval ρ = (f.eval ρ || g.eval ρ) := by
  simp [or]

@[simp]
theorem eval_xor (ρ : Assignment) (f g : Diagram) :
    (f.xor g).eval ρ = (f.eval ρ ^^ g.eval ρ) := by
  simp [xor]

@[simp]
theorem eval_not (ρ : Assignment) (f : Diagram) : f.not.eval ρ = !f.eval ρ := by
  simp [not, eval]

/-- Conjoins neighbours. -/
def pairUp : List Diagram → List Diagram
  | f :: g :: rest => f.and g :: pairUp rest
  | rest => rest

/-- The conjunction of a list. Neighbours are conjoined first, because their diagrams are
small. -/
def conjunction (fs : List Diagram) : Diagram :=
  (pairUp (pairUp (pairUp fs))).foldl and (leaf true)

theorem all_eval_pairUp (ρ : Assignment) (fs : List Diagram) :
    (pairUp fs).all (eval ρ) = fs.all (eval ρ) := by
  fun_induction pairUp fs with
  | case1 f g rest ih => simp [ih, Bool.and_assoc]
  | case2 => rfl

theorem eval_foldl_and (ρ : Assignment) (fs : List Diagram) (f : Diagram) :
    (fs.foldl and f).eval ρ = (f.eval ρ && fs.all (eval ρ)) := by
  induction fs generalizing f with
  | nil => simp
  | cons g fs ih => simp [ih, Bool.and_assoc]

@[simp]
theorem eval_conjunction (ρ : Assignment) (fs : List Diagram) :
    (conjunction fs).eval ρ = fs.all (eval ρ) := by
  simp [conjunction, eval_foldl_and, all_eval_pairUp, eval]

end SoftError.Diagram

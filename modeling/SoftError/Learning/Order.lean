/-!
# The order of decisions

Variables that took part in recent conflicts are decided first. They stand in a binary heap
by their activity; the weight of a conflict grows, so that older ones count less and less.
-/

namespace SoftError.Learning

structure Order where
  activity : Array Nat
  /-- The variables that wait for a decision, each before the less active ones below it. -/
  heap : Array Nat
  /-- One more than the position of a variable in the heap, `0` if it is not there. -/
  places : Array Nat
  weight : Nat

namespace Order

/-- The activity of the first variable. Others start with less, so that before any conflict
the variables are decided in the order of their numbers. -/
def headStart : Nat := 1 <<< 20

/-- There are no variables. -/
def empty : Order where
  activity := #[]
  heap := #[]
  places := #[]
  weight := headStart

/-- Adds a variable that had no part in a conflict yet. -/
def add (o : Order) : Order :=
  let v := o.activity.size
  let place := o.heap.size + 1
  { o with
    activity := o.activity.push (headStart - v)
    heap := o.heap.push v
    places := o.places.push place }

def put (o : Order) (i v : Nat) : Order :=
  { o with heap := o.heap.setIfInBounds i v, places := o.places.setIfInBounds v (i + 1) }

/-- Moves `v`, which is due at position `i`, up to its place. -/
def siftUp (v score : Nat) : (limit : Nat) → (i : Nat) → Order → Order
  | 0, i, o => o.put i v
  | limit + 1, i, o =>
    if i = 0 then o.put i v
    else
      let parent := (i - 1) / 2
      let w := o.heap.getD parent 0
      if o.activity.getD w 0 < score then siftUp v score limit parent (o.put i w) else o.put i v

/-- Moves `v`, which is due at position `i`, down to its place. -/
def siftDown (v score : Nat) : (limit : Nat) → (i : Nat) → Order → Order
  | 0, i, o => o.put i v
  | limit + 1, i, o =>
    let left := 2 * i + 1
    if o.heap.size ≤ left then o.put i v
    else
      let right := left + 1
      let l := o.heap.getD left 0
      let r := o.heap.getD right 0
      let useRight := right < o.heap.size && o.activity.getD l 0 < o.activity.getD r 0
      let child := if useRight then right else left
      let w := if useRight then r else l
      if score < o.activity.getD w 0 then siftDown v score limit child (o.put i w) else o.put i v

/-- No path of a heap is longer. -/
def depth : Nat := 64

def insert (v : Nat) (o : Order) : Order :=
  if o.places.getD v 0 = 0 then
    let i := o.heap.size
    siftUp v (o.activity.getD v 0) depth i { o with heap := o.heap.push v }
  else o

/-- Takes the most active variable out. -/
def pop? (o : Order) : Option (Nat × Order) :=
  if o.heap.isEmpty then none
  else
    let top := o.heap.getD 0 0
    let last := o.heap.getD (o.heap.size - 1) 0
    let o := { o with heap := o.heap.pop, places := o.places.setIfInBounds top 0 }
    if o.heap.isEmpty then some (top, o)
    else some (top, siftDown last (o.activity.getD last 0) depth 0 o)

def maxWeight : Nat := 1 <<< 50

/-- Scales all activities down before they get too large. -/
def rescale (o : Order) : Order :=
  if o.weight < maxWeight then o
  else { o with activity := o.activity.map (· >>> 40), weight := o.weight >>> 40 }

/-- Credits a variable with a part in the current conflict. -/
def bump (v : Nat) (o : Order) : Order :=
  let score := o.activity.getD v 0 + o.weight
  let place := o.places.getD v 0
  let o := { o with activity := o.activity.setIfInBounds v score }
  if place = 0 then o else siftUp v score depth (place - 1) o

/-- Makes the next conflict count more. -/
def decay (o : Order) : Order := rescale { o with weight := o.weight + o.weight / 16 + 1 }

end Order

end SoftError.Learning

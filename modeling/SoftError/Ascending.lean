/-!
# Ascending lists

A finite set is kept as its elements in strictly ascending order.
-/

namespace SoftError.Ascending

variable {α : Type} (lt : α → α → Bool)

/-- Adds an element, unless it is already there. -/
def insert (x : α) : List α → List α
  | [] => [x]
  | y :: ys => if lt x y then x :: y :: ys else if lt y x then y :: insert x ys else y :: ys

def ofList (xs : List α) : List α := xs.foldl (fun set x => insert lt x set) []

end SoftError.Ascending

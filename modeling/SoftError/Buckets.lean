/-!
# Tables with numbered entries

Entries stand in rows by their numbers. The table grows with its entries, so that the rows
stay short.
-/

namespace SoftError

/-- Entries with their numbers. -/
inductive Row (α : Type) where
  | nil
  | cons (number : Nat) (entry : α) (rest : Row α)

namespace Row

variable {α β : Type}

/-- The first result of `p` for an entry with the given number. -/
@[specialize]
def findSome? (number : Nat) (p : α → Option β) : Row α → Option β
  | nil => none
  | cons n x rest =>
    if n = number then
      match p x with
      | some y => some y
      | none => findSome? number p rest
    else findSome? number p rest

/-- Distributes the entries over rows. -/
def distribute (rows : Array (Row α)) : Row α → Array (Row α)
  | nil => rows
  | cons n x rest => distribute (rows.modify (n % rows.size) (cons n x)) rest

end Row

structure Buckets (α : Type) where
  rows : Array (Row α) := Array.replicate 16 .nil
  count : Nat := 0

namespace Buckets

variable {α β : Type}

/-- The first result of `p` for an entry with the given number. -/
@[specialize]
def findSome? (b : Buckets α) (number : Nat) (p : α → Option β) : Option β :=
  (b.rows.getD (number % b.rows.size) .nil).findSome? number p

/-- Adds an entry. A table with as many entries as rows gets twice as many rows first. -/
def insert (number : Nat) (x : α) (b : Buckets α) : Buckets α :=
  let { rows, count } := b
  let rows :=
    if count < rows.size then rows
    else rows.foldl Row.distribute (Array.replicate (2 * rows.size) .nil)
  { rows := rows.modify (number % rows.size) (Row.cons number x), count := count + 1 }

end Buckets

end SoftError

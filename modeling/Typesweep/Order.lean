/-!
# Sorting

Sorting a list by inserting its elements one after the other. `sort` is stable: elements that
compare equal keep their order. `sortDistinct` keeps only the first of them.
-/

namespace Typesweep.Order

variable {α : Type}

/-- Puts `a` before the first element that does not come before it. -/
def insert (compare : α → α → Ordering) (a : α) : List α → List α
  | [] => [a]
  | b :: rest => if compare a b = .gt then b :: insert compare a rest else a :: b :: rest

/-- The elements in ascending order. -/
def sort (compare : α → α → Ordering) (as : List α) : List α :=
  as.foldr (insert compare) []

/-- Puts `a` at its place; an element that compares equal is replaced. -/
def insertDistinct (compare : α → α → Ordering) (a : α) : List α → List α
  | [] => [a]
  | b :: rest =>
    match compare a b with
    | .lt => a :: b :: rest
    | .eq => a :: rest
    | .gt => b :: insertDistinct compare a rest

/-- The elements in ascending order, of those that compare equal only the first. -/
def sortDistinct (compare : α → α → Ordering) (as : List α) : List α :=
  as.foldr (insertDistinct compare) []

end Typesweep.Order

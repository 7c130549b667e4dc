/-!
Ascending lists without duplicates, kept so by insertion.
-/

namespace TokenTables

variable {α : Type} [BEq α]

/-- Inserts `x` before the first larger element, unless `x` itself comes first. -/
def insertOrdered (le : α → α → Bool) (x : α) : List α → List α
  | [] => [x]
  | y :: rest =>
    if x == y then y :: rest
    else if le x y then x :: y :: rest
    else y :: insertOrdered le x rest

/-- Inserts a number into an ascending list. -/
def insertNat (x : Nat) (xs : List Nat) : List Nat := insertOrdered Nat.ble x xs

/-- The numbers of a list, ascending and each once. -/
def ascending (xs : List Nat) : List Nat := xs.foldl (fun acc x => insertNat x acc) []

end TokenTables

/-!
Sorting by merging. Runs that are in order are merged two by two until one is left, which takes
no more rounds than there are elements. Of elements that compare as equal the first stays
first. All recursion is on lists, so that a closed list is sorted by evaluation alone.
-/
namespace ExplicitNull.Sorting

variable {α : Type}

/-- Puts `x` where it belongs in a run; `merge` goes on with what comes behind it. -/
def mergeCons (le : α → α → Bool) (x : α) (merge : List α → List α) : List α → List α
  | [] => x :: merge []
  | y :: ys => if le x y then x :: merge (y :: ys) else y :: mergeCons le x merge ys

def merge (le : α → α → Bool) : List α → List α → List α
  | [] => fun ys => ys
  | x :: xs => mergeCons le x (merge le xs)

def mergePairs (le : α → α → Bool) : List (List α) → List (List α)
  | a :: b :: rest => merge le a b :: mergePairs le rest
  | [run] => [run]
  | [] => []

def rounds (le : α → α → Bool) : Nat → List (List α) → List (List α)
  | 0, runs => runs
  | n + 1, runs => rounds le n (mergePairs le runs)

def sort (le : α → α → Bool) (xs : List α) : List α :=
  (rounds le xs.length (xs.map fun x => [x])).flatten

end ExplicitNull.Sorting

/-!
Association lists kept in ascending order of their keys. Keys that compare as equal count as one,
and the key of the first entry stays.
-/
namespace ExplicitNull.Assoc

variable {α β : Type}

def get? (cmp : α → α → Ordering) (k : α) : List (α × β) → Option β
  | [] => none
  | (k', v) :: rest => if cmp k k' = .eq then some v else get? cmp k rest

def alter (cmp : α → α → Ordering) (k : α) (f : Option β → β) : List (α × β) → List (α × β)
  | [] => [(k, f none)]
  | (k', v) :: rest =>
    match cmp k k' with
    | .lt => (k, f none) :: (k', v) :: rest
    | .eq => (k', f (some v)) :: rest
    | .gt => (k', v) :: alter cmp k f rest

end ExplicitNull.Assoc

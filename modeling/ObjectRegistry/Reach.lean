import ObjectRegistry.Name

namespace ObjectRegistry

def gatherUpTo (next : Name → List Name) :
    (bound : Nat) → (unseen pending : List Name) → List Name
  | 0, _, _ => []
  | bound + 1, unseen, pending =>
    match pending.dropWhile (· ∉ unseen) with
    | [] => []
    | n :: rest => n :: gatherUpTo next bound (unseen.erase n) (next n ++ rest)

/-- The names of `unseen` that can be reached from `pending` along `next` without leaving
`unseen`, in the order of the visits. A visit takes a name out of `unseen`, so circles end by
themselves and the length of `unseen` bounds the search. -/
def gather (next : Name → List Name) (unseen pending : List Name) : List Name :=
  gatherUpTo next unseen.length unseen pending

end ObjectRegistry

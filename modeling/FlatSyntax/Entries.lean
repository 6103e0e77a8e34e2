/-!
# Entries

Finite maps as lists of entries sorted by key, each key once. Iterating a map is reading the list.
-/

namespace FlatSyntax.Entries

variable {κ ν : Type}

/-- Puts a value under a key, in place of the value that was there. -/
def insert [LT κ] [DecidableLT κ] (key : κ) (value : ν) : List (κ × ν) → List (κ × ν)
  | [] => [(key, value)]
  | (k, v) :: rest =>
    if key < k then (key, value) :: (k, v) :: rest
    else if k < key then (k, v) :: insert key value rest
    else (key, value) :: rest

/-- The value under a key. -/
def get? [DecidableEq κ] (entries : List (κ × ν)) (key : κ) : Option ν :=
  (entries.find? fun entry => entry.1 = key).map Prod.snd

/-- The entries of a list of pairs; of two pairs with one key the later counts. -/
def ofList [LT κ] [DecidableLT κ] (pairs : List (κ × ν)) : List (κ × ν) :=
  pairs.foldl (fun entries (key, value) => insert key value entries) []

end FlatSyntax.Entries

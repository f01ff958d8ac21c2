import DesignTokens.Token.Merge
import DesignTokens.Token.Tree

/-!
# Overriding values

* `put id value tree` : walks down the path of an id and puts the value there. Missing groups are made
  on the way, and other members of the token stay. The walk ends early at a token and at what is no
  group;
* `overrideAll patch tree` : puts the values of a patch in ascending order of id, up to the first
  walk that ends early.
-/

namespace DesignTokens

/-- Why a patch cannot be applied: the path of an id goes through a token. -/
structure OverrideError where
  id : String
  leaf : String
  deriving DecidableEq, Repr

def OverrideError.message (e : OverrideError) : String :=
  "Override '" ++ e.id ++ "' passes through leaf '" ++ e.leaf ++ "'"

/-- Walks down a path and puts a value at its end: the tree as the walk leaves it, and the part of the
path that leads to what is no group, if the walk ends there; `walked` is the path up to here. -/
def putFrom (value : Json) (walked : List String) :
    List String → Json → Json × Option (List String)
  | [], .obj ms => (.obj (insertEntry "$value" value ms), none)
  | [], _ => (.obj [("$value", value)], none)
  | name :: path, .obj ms =>
    if isTokenObject ms then (.obj ms, some walked)
    else
      -- a missing group is made before it is known whether the walk comes to the end of the path
      let (child, stop) := putFrom value (walked ++ [name]) path ((ms.lookup name).getD (.obj []))
      (.obj (insertEntry name child ms), stop)
  | _ :: _, j => (j, some walked)

/-- Puts the value of an id at its path: the tree as it is left, and the error. -/
def put (id : String) (value : TokenValue) (tree : Json) : Json × Option OverrideError :=
  let (tree, stop) := putFrom value.toJson [] (splitId id) tree
  (tree, stop.map fun walked => ⟨id, joinPath walked⟩)

/-- Puts values in turn, up to the first error: the tree as it is left, and this error. -/
def overrideEach : List (String × TokenValue) → Json → Json × Option OverrideError
  | [], tree => (tree, none)
  | (id, value) :: rest, tree =>
    match put id value tree with
    | (tree, none) => overrideEach rest tree
    | (tree, some e) => (tree, some e)

/-- The tree with the values of a patch, and the error that ended it early. -/
def overrideAll (patch : Values) (tree : Json) : Json × Option OverrideError :=
  overrideEach patch.entries tree

end DesignTokens

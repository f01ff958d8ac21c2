import DesignTokens.Token.Placeholder

/-!
# Token trees

A token tree is an object of objects. One that has a `$value` is a token; any other is a group.

* `Declaration` : the id, type and declared value of a token;
* `declarations tree` : the tokens of a tree, in the order of the walk. An id joins the names on the
  way with dots; names that start with `$` are skipped; a type is taken from the nearest object on
  the way that has one;
* `declarationMap tree` : by id; of two with the same id the later one counts.
-/

namespace DesignTokens

structure Declaration where
  id : String
  kind : Option String
  raw : TokenValue
  deriving DecidableEq, Inhabited, Repr

def Declaration.refs (d : Declaration) : List String := d.raw.refs

def joinPath (path : List String) : String := String.intercalate "." path

/-- The names of the path that an id stands for. -/
def splitId (id : String) : List String := Text.splitString '.' id

/-- The name is not one of a token or group. -/
def isReserved (name : String) : Bool := name.toList.head? == some '$'

/-- The token with this `$value` at a path; there is none at the root or if the value is `null`. -/
def declarationAt (path : List String) (kind : Option String) (value : Json) : List Declaration :=
  match path, TokenValue.declared? value with
  | [], _ => []
  | _, none => []
  | path, some raw => [⟨joinPath path, kind, raw⟩]

mutual

/-- The tokens at and below a path, where `inherited` is the type given above it. -/
def declarationsBelow (path : List String) (inherited : Option String) : Json → List Declaration
  | .obj ms =>
    let kind := ((ms.lookup "$type").bind Json.str?).or inherited
    match ms.lookup "$value" with
    | some value => declarationAt path kind value
    | none => memberDeclarations path kind ms
  | _ => []

def memberDeclarations (path : List String) (kind : Option String) :
    List (String × Json) → List Declaration
  | [] => []
  | (name, j) :: ms =>
    (if isReserved name then [] else declarationsBelow (path ++ [name]) kind j) ++
      memberDeclarations path kind ms

end

/-- The tokens of a tree, in the order of the walk. -/
def declarations (tree : Json) : List Declaration := declarationsBelow [] none tree

/-- The tokens of a tree by id. -/
def declarationMap (tree : Json) : SortedMap String Declaration :=
  .ofList ((declarations tree).map fun d => (d.id, d))

end DesignTokens

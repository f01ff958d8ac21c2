import DesignTokens.Json.Record

/-!
# Order triples

* `OrderRelation` : at most, or at least;
* `OrderTriple` : two ids and how their values are said to compare; `edge` is the id of the greater
  value and that of the lesser one;
* `OrderTriple.ofJson?`, `OrderTriple.toJson` : a triple is an array of three texts.
-/

namespace DesignTokens

inductive OrderRelation where
  | atMost
  | atLeast
  deriving DecidableEq, Repr

namespace OrderRelation

def symbol : OrderRelation → String
  | atMost => "<="
  | atLeast => ">="

def ofSymbol? : String → Option OrderRelation
  | "<=" => some atMost
  | ">=" => some atLeast
  | _ => none

def holds (r : OrderRelation) (x y : Float) : Bool :=
  match r with
  | atMost => x ≤ y
  | atLeast => y ≤ x

def ofJson? (j : Json) : Option OrderRelation := (Json.variant? j).bind ofSymbol?

end OrderRelation

/-- Two ids and how their values are said to compare. -/
structure OrderTriple where
  left : String
  relation : OrderRelation
  right : String
  deriving DecidableEq, Repr

namespace OrderTriple

/-- The ids of the greater and of the lesser value. -/
def edge (t : OrderTriple) : String × String :=
  match t.relation with
  | .atLeast => (t.left, t.right)
  | .atMost => (t.right, t.left)

def asText (t : OrderTriple) : String := t.left ++ " " ++ t.relation.symbol ++ " " ++ t.right

def toJson (t : OrderTriple) : Json := .ofStrings [t.left, t.relation.symbol, t.right]

def ofJson? : Json → Option OrderTriple
  | .arr [a, r, b] => do some ⟨← a.str?, ← OrderRelation.ofJson? r, ← b.str?⟩
  | _ => none

end OrderTriple

end DesignTokens

import DesignTokens.Expr.Basic
import DesignTokens.Json.Parser

/-!
# Expressions as documents

* `Expr.toJson`, `Expr.ofJson?` : a number is a number; `{"ref": id}` refers to a token; the other
  kinds are an object with one member, whose name tells the kind and whose value is the array of the
  operands. A choice has the branches, each with `when` and `then`, and the expression for `else`;
* `Expr.parse?` : the expression that a text writes;
* `Limits.toJson`, `Limits.ofJson?`.

Records may be given as arrays of their fields. To read one, all members of an object are read
before the ones with the right names are taken, so the recursion follows the document.
-/

namespace DesignTokens

namespace Expr

mutual

/-- The document of an expression; a number that is not finite is `null`. -/
def toJson : Expr → Json
  | literal x => if x.isFinite then .ofFloat x else .null
  | ref id => .obj [("ref", .str id)]
  | arithmetic op a b => .obj [(op.name, .arr [toJson a, toJson b])]
  | clamp v lo hi => .obj [("clamp", .arr [toJson v, toJson lo, toJson hi])]
  | test op a b => .obj [(op.name, .arr [toJson a, toJson b])]
  | piecewise bs e =>
    .obj [("piecewise", .obj [("branches", .arr (branchesToJson bs)), ("else", toJson e)])]

def branchesToJson : List (Expr × Expr) → List Json
  | [] => []
  | (c, e) :: bs => .obj [("when", toJson c), ("then", toJson e)] :: branchesToJson bs

end

def ofPair? (tag : String) (a b : Option Expr) : Option Expr :=
  match Arithmetic.ofName? tag, Test.ofName? tag with
  | some op, _ => do some (arithmetic op (← a) (← b))
  | none, some op => do some (test op (← a) (← b))
  | none, none => none

def ofChoice? (branches : Option (List (Expr × Expr))) (otherwise : Option Expr) : Option Expr := do
  some (piecewise (← branches) (← otherwise))

/-- A field that must be there and have been read. -/
def required? {α : Type} (names : List String) (members : List (String × Option α))
    (name : String) : Option α :=
  (Record.ofMembers? names members).bind fun r => r.field? name id

def choiceFields : List String := ["branches", "else"]

def branchFields : List String := ["when", "then"]

mutual

/-- The expression of a document. -/
def ofJson? : Json → Option Expr
  | .num n => some (literal n.toFloat)
  | .obj [(tag, operands)] => ofTagged? tag operands
  | _ => none

def ofTagged? (tag : String) : Json → Option Expr
  | .str id => if tag = "ref" then some (ref id) else none
  | .arr [a, b] =>
    if tag = "piecewise" then ofChoice? (branches? a) (ofJson? b)
    else ofPair? tag (ofJson? a) (ofJson? b)
  | .arr [a, b, c] =>
    if tag = "clamp" then do some (clamp (← ofJson? a) (← ofJson? b) (← ofJson? c)) else none
  | .obj ms =>
    if tag = "piecewise" then
      ofChoice? (required? choiceFields (membersAsBranches ms) "branches")
        (required? choiceFields (membersAsExprs ms) "else")
    else none
  | _ => none

def membersAsExprs : List (String × Json) → List (String × Option Expr)
  | [] => []
  | (name, j) :: ms => (name, ofJson? j) :: membersAsExprs ms

def membersAsBranches : List (String × Json) → List (String × Option (List (Expr × Expr)))
  | [] => []
  | (name, j) :: ms => (name, branches? j) :: membersAsBranches ms

def branches? : Json → Option (List (Expr × Expr))
  | .arr items => branchItems? items
  | _ => none

def branchItems? : List Json → Option (List (Expr × Expr))
  | [] => some []
  | j :: js => do some ((← branch? j) :: (← branchItems? js))

def branch? : Json → Option (Expr × Expr)
  | .arr [c, e] => do some (← ofJson? c, ← ofJson? e)
  | .obj ms => do
    let es := membersAsExprs ms
    some (← required? branchFields es "when", ← required? branchFields es "then")
  | _ => none

end

/-- The expression that a text writes; all of the text is looked at. -/
def parse? (s : String) : Option Expr := (Json.parseAs? .whole s).bind ofJson?

end Expr

namespace Limits

/-- The document of limits. -/
def toJson (l : Limits) : Json :=
  .obj [("maxMagnitude", .ofFloat l.maxMagnitude), ("maxNodes", .ofNat l.maxNodes)]

def fields : List String := ["maxNodes", "maxMagnitude"]

/-- The limits of a document; each may be absent. -/
def ofJson? (j : Json) : Option Limits := do
  let r ← Record.ofJson? fields j
  some ⟨← r.default? "maxNodes" Limits.default.maxNodes Json.nat?,
    ← r.default? "maxMagnitude" Limits.default.maxMagnitude Json.float?⟩

end Limits

end DesignTokens

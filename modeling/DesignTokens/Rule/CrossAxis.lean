import DesignTokens.Issue
import DesignTokens.Rule.Comparison

/-!
# Cross-axis rules

* `CrossAxisRule` : a condition on one token and a requirement on another, or a comparison of two
  tokens with a distance between them;
* `lengthIn view id` : the size of a token: its number, or the first length in its text;
* `CrossAxisRule.check view r` : an error if the requirement or comparison fails, a warning if it
  cannot be made. Nothing is said while the condition of a rule is false.
-/

namespace DesignTokens

/-- A comparison of a token with a number of pixels. -/
structure Condition where
  id : String
  comparison : Comparison
  pixels : Float
  deriving DecidableEq, Repr

/-- A comparison of a token with another one, or with a number of pixels if that has no size. -/
structure Requirement where
  id : String
  comparison : Comparison
  reference : Option String
  fallback : Option Float
  deriving DecidableEq, Repr

/-- A comparison of a token with another one and a distance. -/
structure PairComparison where
  left : String
  comparison : Comparison
  right : String
  distance : Float
  deriving DecidableEq, Repr

/-- A relation between tokens on different axes. -/
inductive CrossAxisRule where
  | conditional (condition : Condition) (requirement : Requirement) (tag : Option String)
  | compare (pair : PairComparison) (tag : Option String)
  deriving DecidableEq, Repr

/-- The size of a token, or why there is none. -/
def lengthIn (view : View) (id : String) : Except String Float :=
  match view id with
  | none => .error ("unknown token '" ++ id ++ "'")
  | some v =>
    match v.asNumber?.or (firstLength? v.asText) with
    | some x => .ok x
    | none => .error ("no length in " ++ id ++ ": '" ++ v.asText ++ "'")

namespace Requirement

/-- The size that the token is compared with, or why there is none. -/
def target (view : View) (r : Requirement) : Except String Float :=
  match r.reference, r.fallback with
  | some id, fallback =>
    match lengthIn view id, fallback with
    | .ok x, _ => .ok x
    | .error _, some x => .ok x
    | .error reason, none => .error reason
  | none, some x => .ok x
  | none, none => .error ("requirement on " ++ r.id ++ " has neither ref nor fallbackPx")

end Requirement

namespace CrossAxisRule

def unmet (c : Condition) (r : Requirement) (trigger target actual : Float) : String :=
  "when " ++ c.id ++ " " ++ c.comparison.symbol ++ " " ++ pixels c.pixels ++ " (" ++
    pixels trigger ++ "), " ++ r.id ++ " must be " ++ r.comparison.symbol ++ " " ++
    pixels target ++ " but is " ++ pixels actual

def conditionalVerdict (view : View) (c : Condition) (r : Requirement) :
    Except String (Option String) := do
  let trigger ← lengthIn view c.id
  if c.comparison.holds trigger c.pixels then
    let target ← r.target view
    let actual ← lengthIn view r.id
    pure (if r.comparison.holds actual target then none
      else some (unmet c r trigger target actual))
  else pure none

def rightSide (p : PairComparison) : String :=
  if p.distance == 0.0 then p.right else p.right ++ " + " ++ pixels p.distance

def pairVerdict (view : View) (p : PairComparison) : Except String (Option String) := do
  let x ← lengthIn view p.left
  let y ← lengthIn view p.right
  pure (if p.comparison.holds x (y + p.distance) then none
    else some (p.left ++ " " ++ p.comparison.symbol ++ " " ++ rightSide p ++ " violated (" ++
      pixels x ++ " vs " ++ pixels (y + p.distance) ++ ")"))

def participants : CrossAxisRule → List String
  | conditional c r _ => [c.id, r.id] ++ r.reference.toList
  | compare p _ => [p.left, p.right]

def check (view : View) : CrossAxisRule → Option Issue
  | conditional c r tag =>
    Issue.ofVerdict (pairId c.id r.id) "cross-axis" tag (conditionalVerdict view c r)
  | compare p tag =>
    Issue.ofVerdict (pairId p.left p.right) "cross-axis" tag (pairVerdict view p)

/-! ## Documents -/

def conditionToJson (c : Condition) : Json :=
  .obj [("id", .str c.id), ("op", c.comparison.toJson), ("valuePx", .ofFloat c.pixels)]

def conditionOfJson? (j : Json) : Option Condition := do
  let r ← Record.ofJson? ["id", "op", "valuePx"] j
  some ⟨← r.field? "id" Json.str?, ← r.field? "op" Comparison.ofJson?,
    ← r.field? "valuePx" Json.float?⟩

def requirementToJson (r : Requirement) : Json :=
  .obj ([("id", .str r.id), ("op", r.comparison.toJson)] ++
    Json.optionMember "ref" .str r.reference ++ Json.optionMember "fallbackPx" .ofFloat r.fallback)

def requirementOfJson? (j : Json) : Option Requirement := do
  let r ← Record.ofJson? ["id", "op", "ref", "fallbackPx"] j
  some ⟨← r.field? "id" Json.str?, ← r.field? "op" Comparison.ofJson?,
    ← r.option? "ref" Json.str?, ← r.option? "fallbackPx" Json.float?⟩

def pairToJson (p : PairComparison) : Json :=
  .obj [("a", .str p.left), ("op", p.comparison.toJson), ("b", .str p.right),
    ("delta", .ofFloat p.distance)]

def pairOfJson? (j : Json) : Option PairComparison := do
  let r ← Record.ofJson? ["a", "op", "b", "delta"] j
  some ⟨← r.field? "a" Json.str?, ← r.field? "op" Comparison.ofJson?,
    ← r.field? "b" Json.str?, ← r.default? "delta" 0.0 Json.float?⟩

def toJson : CrossAxisRule → Json
  | conditional c r tag =>
    .obj ([("when", conditionToJson c), ("require", requirementToJson r)] ++
      Json.optionMember "where" .str tag)
  | compare p tag => .obj ([("compare", pairToJson p)] ++ Json.optionMember "where" .str tag)

def conditionalOfMembers? (ms : List (String × Json)) : Option CrossAxisRule := do
  let r ← Record.ofMembers? ["when", "require", "where"] ms
  some (conditional (← r.field? "when" conditionOfJson?) (← r.field? "require" requirementOfJson?)
    (← r.option? "where" Json.str?))

def compareOfMembers? (ms : List (String × Json)) : Option CrossAxisRule := do
  let r ← Record.ofMembers? ["compare", "where"] ms
  some (compare (← r.field? "compare" pairOfJson?) (← r.option? "where" Json.str?))

/-- The rule of a document: an object, read as a conditional rule if it can be. -/
def ofJson? : Json → Option CrossAxisRule
  | .obj ms => (conditionalOfMembers? ms).or (compareOfMembers? ms)
  | _ => none

end CrossAxisRule

end DesignTokens

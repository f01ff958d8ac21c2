import DesignTokens.Color.Literal
import DesignTokens.Issue
import DesignTokens.Order.Triple
import DesignTokens.Rule.Comparison

/-!
# Order rules

* `Measure` : how a value becomes a number that can be compared: a size, a number, or a lightness;
* `OrderRule` : an order triple, the measure of its two values, and a tag;
* `OrderRule.violation? view r` : the two numbers, if they can be read and do not compare as the
  triple says;
* `OrderRule.check view r` : an error for a violation. What cannot be read is passed over.
-/

namespace DesignTokens

/-- How a value becomes a number that can be compared. -/
inductive Measure where
  | size
  | number
  | lightness
  deriving DecidableEq, Repr

namespace Measure

def name : Measure → String
  | size => "size"
  | number => "number"
  | lightness => "lightness"

def ofName? : String → Option Measure
  | "size" => some size
  | "number" => some number
  | "lightness" => some lightness
  | _ => none

def ofJson? (j : Json) : Option Measure := (Json.variant? j).bind ofName?

/-- The lightness of an `oklch` literal, or the luminance of another colour. -/
def lightnessOf? (s : String) : Option Float :=
  (Color.oklchLightness? s).or ((Color.parse? s).map Color.luminance)

def read? (m : Measure) (v : TokenValue) : Option Float :=
  match m, v with
  | size, .number x => some x
  | number, .number x => some x
  | size, .text s => size? s
  | number, .text s => number? s
  | lightness, v => lightnessOf? v.asText

def display (m : Measure) (x : Float) : String :=
  match m with
  | size => pixels x
  | number => Decimal.plain (Decimal.roundTo3 x)
  | lightness => Decimal.plain (Decimal.roundTo3 x)

/-- The name under which rules with the measure report. -/
def ruleName : Measure → String
  | lightness => "monotonic-lightness"
  | size => "monotonic"
  | number => "monotonic"

end Measure

/-- An order triple, the measure of its two values, and a tag. -/
structure OrderRule where
  triple : OrderTriple
  measure : Measure
  tag : Option String
  deriving DecidableEq, Repr

structure OrderViolation where
  left : Float
  right : Float
  deriving DecidableEq, Repr

namespace OrderRule

def participants (r : OrderRule) : List String := [r.triple.left, r.triple.right]

/-- The two numbers, if they can be read and do not compare as the triple says. -/
def violation? (view : View) (r : OrderRule) : Option OrderViolation := do
  let left ← (view r.triple.left).bind r.measure.read?
  let right ← (view r.triple.right).bind r.measure.read?
  if r.triple.relation.holds left right then none else some ⟨left, right⟩

def describe (r : OrderRule) (v : OrderViolation) : String :=
  r.triple.asText ++ " violated (" ++ r.measure.display v.left ++ " vs " ++
    r.measure.display v.right ++ ")"

def check (view : View) (r : OrderRule) : Option Issue :=
  (r.violation? view).map fun v =>
    ⟨pairId r.triple.left r.triple.right, r.measure.ruleName, .error, r.describe v, r.tag⟩

end OrderRule

end DesignTokens

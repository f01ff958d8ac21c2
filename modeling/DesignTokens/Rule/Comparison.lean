import DesignTokens.Json.Record
import DesignTokens.Quantity
import DesignTokens.Token.Value

/-!
# Comparing sizes

* `Comparison` : the five ways to compare two numbers; equal means less than a billionth apart;
* `View` : the values of tokens, by id;
* `sizeIn? view id` : the size of a token, for expressions;
* `pixels x` : how a message shows a size.
-/

namespace DesignTokens

inductive Comparison where
  | less
  | atMost
  | greater
  | atLeast
  | equal
  deriving DecidableEq, Repr

namespace Comparison

def symbol : Comparison → String
  | less => "<"
  | atMost => "<="
  | greater => ">"
  | atLeast => ">="
  | equal => "=="

def ofSymbol? : String → Option Comparison
  | "<" => some less
  | "<=" => some atMost
  | ">" => some greater
  | ">=" => some atLeast
  | "==" => some equal
  | _ => none

/-- Numbers less than this apart are equal. -/
def tolerance : Float := 1e-9

def holds (c : Comparison) (x y : Float) : Bool :=
  match c with
  | less => x < y
  | atMost => x ≤ y
  | greater => y < x
  | atLeast => y ≤ x
  | equal => (x - y).abs < tolerance

def toJson (c : Comparison) : Json := .str c.symbol

def ofJson? (j : Json) : Option Comparison := (Json.variant? j).bind ofSymbol?

end Comparison

/-- The values of tokens, by id. -/
abbrev View := String → Option TokenValue

/-- The size of a token, for expressions. -/
def sizeIn? (view : View) (id : String) : Option Float := (view id).bind fun v => size? v.asText

/-- A size in a message. -/
def pixels (x : Float) : String := Decimal.plain (Decimal.roundTo3 x) ++ "px"

end DesignTokens

import DesignTokens.Json.Parser
import DesignTokens.Json.Printer
import DesignTokens.Decimal.Text
import DesignTokens.Text.Pieces

/-!
# Token values

* `TokenValue` : a number or a text;
* `TokenValue.asText` : what stands for a value in a message or inside another text;
* `TokenValue.ofJson?` : the value that a document is; `TokenValue.declared?` : the value that a
  token declares, where anything but a number or a text counts as its own compressed text;
* `composite? s` : the array or object that a text writes.
-/

namespace DesignTokens

inductive TokenValue where
  | number (x : Float)
  | text (s : String)
  deriving DecidableEq, Inhabited, Repr

namespace TokenValue

def asText : TokenValue → String
  | number x => Decimal.plain x
  | text s => s

def asNumber? : TokenValue → Option Float
  | number x => some x
  | text _ => none

/-- The value as a document; a number that is not finite is `null`. -/
def toJson : TokenValue → Json
  | number x => if x.isFinite then .ofFloat x else .null
  | text s => .str s

def ofJson? : Json → Option TokenValue
  | .num n => some (number n.toFloat)
  | .str s => some (text s)
  | _ => none

/-- The value that a token with this declaration has; `null` declares none. -/
def declared? : Json → Option TokenValue
  | .null => none
  | .num n => some (number n.toFloat)
  | .str s => some (text s)
  | j => some (text j.compress)

end TokenValue

abbrev Values := SortedMap String TokenValue

def Values.toJson (values : Values) : Json := .obj (values.mapValues TokenValue.toJson).entries

/-- The array or object that a text writes, in normal form. -/
def composite? (s : String) : Option Json :=
  match s.toList with
  | c :: _ => if c = '{' || c = '[' then (Json.parse? s).filter Json.isComposite else none
  | [] => none

end DesignTokens

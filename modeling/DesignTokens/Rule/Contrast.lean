import DesignTokens.Color.Literal
import DesignTokens.Issue
import DesignTokens.Rule.Comparison

/-!
# Contrast rules

* `ContrastPair` : a foreground, a background and the least contrast between them. Each is a colour
  literal or the id of a token; a backdrop, white if none is given, is under the background;
* `ContrastPair.ratio view p` : the contrast, or why there is none;
* `ContrastPair.check view p` : an error if the contrast is too low, a warning if there is none.
-/

namespace DesignTokens

/-- A foreground, a background and the least contrast between them. -/
structure ContrastPair where
  foreground : String
  background : String
  least : Float
  backdrop : Option String
  tag : Option String
  deriving DecidableEq, Repr

namespace ContrastPair

def participants (p : ContrastPair) : List String :=
  ([p.foreground, p.background] ++ p.backdrop.toList).filter fun s => (Color.parse? s).isNone

def colorOf (view : View) (operand : String) : Except String Color :=
  match Color.parse? operand with
  | some c => .ok c
  | none =>
    match view operand with
    | none => .error ("unknown token '" ++ operand ++ "'")
    | some v =>
      match Color.parse? v.asText with
      | some c => .ok c
      | none => .error ("unparseable color for " ++ operand ++ ": '" ++ v.asText ++ "'")

def backdropColor (view : View) (p : ContrastPair) : Except String Color :=
  match p.backdrop with
  | some operand => colorOf view operand
  | none => .ok Color.white

/-- The contrast after each colour is laid on what is under it, or why there is none. -/
def ratio (view : View) (p : ContrastPair) : Except String Float := do
  let backdrop := (← backdropColor view p).flattenOver Color.white
  let background := (← colorOf view p.background).flattenOver backdrop
  let foreground := (← colorOf view p.foreground).flattenOver background
  let r := Color.contrastRatio foreground.luminance background.luminance
  if r.isFinite then pure r
  else
    throw ("contrast between " ++ p.foreground ++ " and " ++ p.background ++ " is not computable")

/-- The id under which issues of the pair are reported. -/
def subject (p : ContrastPair) : String := pairId p.foreground p.background

def tooLow (p : ContrastPair) (r : Float) : String :=
  "contrast " ++ Decimal.plain (Decimal.roundTo3 r) ++ ":1 between " ++ p.foreground ++ " and " ++
    p.background ++ " is below " ++ Decimal.plain p.least ++ ":1"

/-- What is wrong, or why it cannot be told. -/
def verdict (view : View) (p : ContrastPair) : Except String (Option String) := do
  let r ← p.ratio view
  pure (if r < p.least then some (p.tooLow r) else none)

def check (view : View) (p : ContrastPair) : Option Issue :=
  Issue.ofVerdict p.subject "contrast" p.tag (p.verdict view)

def toJson (p : ContrastPair) : Json :=
  .obj ([("fg", .str p.foreground), ("bg", .str p.background), ("min", .ofFloat p.least)] ++
    Json.optionMember "backdrop" .str p.backdrop ++ Json.optionMember "where" .str p.tag)

def fields : List String := ["fg", "bg", "min", "backdrop", "where"]

def ofJson? (j : Json) : Option ContrastPair := do
  let r ← Record.ofJson? fields j
  some ⟨← r.field? "fg" Json.str?, ← r.field? "bg" Json.str?, ← r.field? "min" Json.float?,
    ← r.option? "backdrop" Json.str?, ← r.option? "where" Json.str?⟩

end ContrastPair

end DesignTokens

import DesignTokens.Expr.Document
import DesignTokens.Expr.Evaluate
import DesignTokens.Issue
import DesignTokens.Rule.Comparison

/-!
# Threshold rules

* `ThresholdRule` : a token and the bound that its size is compared with, a number of pixels or an
  expression, which counts if both are given;
* `ThresholdRule.check limits view r` : an error if the comparison fails, a warning if it cannot be
  made.
-/

namespace DesignTokens

/-- A token and the bound that its size is compared with. -/
structure ThresholdRule where
  id : String
  comparison : Comparison
  pixels : Option Float
  expr : Option Expr
  tag : Option String
  deriving BEq, Repr

namespace ThresholdRule

def fixed (id : String) (comparison : Comparison) (px : Float) : ThresholdRule :=
  ⟨id, comparison, some px, none, none⟩

def computed (id : String) (comparison : Comparison) (e : Expr) : ThresholdRule :=
  ⟨id, comparison, none, some e, none⟩

/-- The token and those that the bound refers to, each once. -/
def participants (r : ThresholdRule) : List String :=
  (r.id :: (r.expr.map Expr.refs).getD []).eraseDups

/-- The id under which issues of the rule are reported names every participant, so that an issue
raised by a change of one that the bound refers to still names it. -/
def subject (r : ThresholdRule) : String := String.intercalate "|" r.participants

def bound (limits : Limits) (view : View) (r : ThresholdRule) : Except String Float :=
  match r.expr, r.pixels with
  | some e, _ =>
    match evaluate (sizeIn? view) limits e with
    | .ok x => .ok x
    | .error err =>
      .error ("bound for " ++ r.id ++ " not computable [" ++ err.code ++ "]: " ++ err.message)
  | none, some px => .ok px
  | none, none => .error ("threshold for " ++ r.id ++ " has neither valuePx nor expr")

def actual (view : View) (r : ThresholdRule) : Except String Float :=
  match view r.id with
  | none => .error ("unknown token '" ++ r.id ++ "'")
  | some v =>
    match v.asNumber?.or (size? v.asText) with
    | some x => .ok x
    | none => .error ("unparseable size for " ++ r.id ++ ": '" ++ v.asText ++ "'")

def outOfBounds (r : ThresholdRule) (x b : Float) : String :=
  r.id ++ " is " ++ DesignTokens.pixels x ++ ", expected " ++ r.comparison.symbol ++ " " ++
    DesignTokens.pixels b

def verdict (limits : Limits) (view : View) (r : ThresholdRule) :
    Except String (Option String) := do
  let b ← r.bound limits view
  let x ← r.actual view
  pure (if r.comparison.holds x b then none else some (r.outOfBounds x b))

def check (limits : Limits) (view : View) (r : ThresholdRule) : Option Issue :=
  Issue.ofVerdict r.subject "threshold" r.tag (r.verdict limits view)

def toJson (r : ThresholdRule) : Json :=
  .obj ([("id", .str r.id), ("op", r.comparison.toJson)] ++
    Json.optionMember "valuePx" .ofFloat r.pixels ++ Json.optionMember "expr" Expr.toJson r.expr ++
    Json.optionMember "where" .str r.tag)

def fields : List String := ["id", "op", "valuePx", "expr", "where"]

def ofJson? (j : Json) : Option ThresholdRule := do
  let r ← Record.ofJson? fields j
  some ⟨← r.field? "id" Json.str?, ← r.field? "op" Comparison.ofJson?,
    ← r.option? "valuePx" Json.float?, ← r.option? "expr" Expr.ofJson?,
    ← r.option? "where" Json.str?⟩

end ThresholdRule

end DesignTokens

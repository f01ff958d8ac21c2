import DesignTokens.Token.Placeholder

/-!
# Substitution

* `substituteText lookup s` : `s` with its placeholders replaced by the texts of the values that
  `lookup` gives; a text that is one placeholder becomes the value itself, so a number stays one;
* `substitute lookup v` : the same for a value. The text of an array or object is replaced text by
  text inside it, so its structure stays.

A placeholder without a value is left as it is written.
-/

namespace DesignTokens

/-- The text that stands in the place of a part. -/
def Segment.expand (lookup : String → Option TokenValue) : Segment → List Char
  | .literal c => [c]
  | .placeholder inner =>
    match lookup (Segment.idOf inner) with
    | some v => v.asText.toList
    | none => Segment.written (.placeholder inner)

def expandAll (lookup : String → Option TokenValue) (parts : List Segment) : String :=
  String.ofList (parts.flatMap (Segment.expand lookup))

def substituteText (lookup : String → Option TokenValue) (s : String) : TokenValue :=
  match segments s.toList with
  | [.placeholder inner] => (lookup (Segment.idOf inner)).getD (.text s)
  | parts => .text (expandAll lookup parts)

/-- A value with its placeholders replaced. -/
def substitute (lookup : String → Option TokenValue) : TokenValue → TokenValue
  | .number x => .number x
  | .text s =>
    match composite? s with
    | some doc => .text (doc.mapLeaves fun leaf => (substituteText lookup leaf).toJson).compress
    | none => substituteText lookup s

end DesignTokens

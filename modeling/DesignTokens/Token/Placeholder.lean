import DesignTokens.Text.Blank
import DesignTokens.Token.Value

/-!
# Placeholders

* `Segment` : a character, or the text between the braces of a placeholder;
* `segments cs` : the parts of `cs`. A placeholder is an opening brace and the next brace after it,
  if that is a closing one and some character stands between them;
* `placeholderIds s` : the ids that `s` cites, each once, in the order of the first citation;
* `TokenValue.refs` : the ids that a value cites. In the text of an array or object only the texts
  inside it cite anything.
-/

namespace DesignTokens

/-- A part of a text. -/
inductive Segment where
  | literal (c : Char)
  | placeholder (inner : List Char)
  deriving DecidableEq, Repr

namespace Segment

/-- The id that a placeholder cites: the text between its braces without the blanks around it. -/
def idOf (inner : List Char) : String := String.ofList (Text.trim inner)

/-- The id, if the part is a placeholder. -/
def id? : Segment → Option String
  | literal _ => none
  | placeholder inner => some (idOf inner)

/-- A part as it is written. -/
def written : Segment → List Char
  | literal c => [c]
  | placeholder inner => '{' :: inner ++ ['}']

end Segment

/-- Characters that turned out not to belong to a placeholder. -/
def literals (cs : List Char) : List Segment := cs.map .literal

/-- The parts of a text. After an opening brace `pending` holds the characters since, last first. -/
def segmentsFrom : Option (List Char) → List Char → List Segment
  | none, [] => []
  | some pending, [] => literals ('{' :: pending.reverse)
  | none, c :: cs =>
    if c = '{' then segmentsFrom (some []) cs else .literal c :: segmentsFrom none cs
  | some pending, c :: cs =>
    if c = '{' then literals ('{' :: pending.reverse) ++ segmentsFrom (some []) cs
    else if c = '}' then
      (if pending.isEmpty then literals ['{', '}'] else [.placeholder pending.reverse]) ++
        segmentsFrom none cs
    else segmentsFrom (some (c :: pending)) cs

def segments (cs : List Char) : List Segment := segmentsFrom none cs

/-- The ids that a text cites, in the order of the first citation. -/
def placeholderIds (s : String) : List String :=
  ((segments s.toList).filterMap Segment.id?).eraseDups

namespace TokenValue

/-- The ids that a value cites, in the order of the first citation. -/
def refs : TokenValue → List String
  | number _ => []
  | text s =>
    match composite? s with
    | some doc => (doc.leaves.flatMap placeholderIds).eraseDups
    | none => placeholderIds s

def hasPlaceholder (v : TokenValue) : Bool := !v.refs.isEmpty

end TokenValue

end DesignTokens

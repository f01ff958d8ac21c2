/-!
# Cutting a text at separators

* `pieces p cs` : the parts of `cs` between the characters that satisfy `p`, empty parts included;
* `cutAt p cs` : the part before the first such character and the part after it;
* `stripStart?`, `stripEnd?` : a text without a given beginning or end.

Every text has one more piece than it has separators, so no text has no pieces.
-/

namespace DesignTokens.Text

/-- The parts of a text between the characters that satisfy `p`, in order, empty ones included. -/
def pieces (p : Char → Bool) : List Char → List (List Char)
  | [] => [[]]
  | c :: cs =>
    if p c then [] :: pieces p cs
    else match pieces p cs with
      | [] => [[c]]
      | w :: ws => (c :: w) :: ws

def splitString (sep : Char) (s : String) : List String :=
  (pieces (· == sep) s.toList).map String.ofList

/-- The part before the first character that satisfies `p` and the part after it. -/
def cutAt (p : Char → Bool) : List Char → Option (List Char × List Char)
  | [] => none
  | c :: cs => if p c then some ([], cs) else (cutAt p cs).map fun (a, b) => (c :: a, b)

/-- The rest of a text that begins with `start`. -/
def stripStart? (start : List Char) (cs : List Char) : Option (List Char) :=
  if start.isPrefixOf cs then some (cs.drop start.length) else none

/-- The beginning of a text that ends with `tail`. -/
def stripEnd? (tail : List Char) (cs : List Char) : Option (List Char) :=
  if tail.isSuffixOf cs then some (cs.take (cs.length - tail.length)) else none

/-- A string with a text in place of each `c`. -/
def replaceChar (c : Char) (t s : String) : String :=
  String.ofList (s.toList.flatMap fun d => if d = c then t.toList else [d])

/-- A text padded with spaces at its end to at least `width` characters. -/
def padEnd (width : Nat) (s : String) : String :=
  s ++ String.ofList (List.replicate (width - s.length) ' ')

end DesignTokens.Text

import DesignTokens.Json.Number
import DesignTokens.Text.Hex

/-!
# Writing documents

* `Json.chars`, `Json.compress` : a document without any blank;
* `Json.prettyChars`, `Json.pretty` : a document with one item or member a line, each depth indented
  by two spaces.

In a text only the quote, the backslash and the characters below the space are escaped.
-/

namespace DesignTokens.Json

def escapeChar (c : Char) : List Char :=
  if c = '"' then ['\\', '"']
  else if c = '\\' then ['\\', '\\']
  else if 32 ≤ c.toNat then [c]
  else match c.toNat with
    | 8 => ['\\', 'b']
    | 9 => ['\\', 't']
    | 10 => ['\\', 'n']
    | 12 => ['\\', 'f']
    | 13 => ['\\', 'r']
    | n => ['\\', 'u', '0', '0', Text.hexDigit (n / 16), Text.hexDigit (n % 16)]

def quote (s : String) : List Char := '"' :: s.toList.flatMap escapeChar ++ ['"']

mutual

def chars : Json → List Char
  | null => ['n', 'u', 'l', 'l']
  | bool true => ['t', 'r', 'u', 'e']
  | bool false => ['f', 'a', 'l', 's', 'e']
  | num n => n.chars
  | str s => quote s
  | arr [] => ['[', ']']
  | arr (j :: js) => '[' :: chars j ++ itemChars js
  | obj [] => ['{', '}']
  | obj ((k, j) :: ms) => '{' :: quote k ++ ':' :: chars j ++ memberChars ms

/-- The further items of an array, each after a comma, and its end. -/
def itemChars : List Json → List Char
  | [] => [']']
  | j :: js => ',' :: chars j ++ itemChars js

/-- The further members of an object, each after a comma, and its end. -/
def memberChars : List (String × Json) → List Char
  | [] => ['}']
  | (k, j) :: ms => ',' :: quote k ++ ':' :: chars j ++ memberChars ms

end

def compress (j : Json) : String := String.ofList j.chars

def newLine (depth : Nat) : List Char := '\n' :: List.replicate (2 * depth) ' '

mutual

/-- The text of a document, one item or member a line, from the given depth on. -/
def prettyChars (depth : Nat) : Json → List Char
  | arr [] => ['[', ']']
  | arr (j :: js) =>
    '[' :: newLine (depth + 1) ++ prettyChars (depth + 1) j ++ prettyItems depth js
  | obj [] => ['{', '}']
  | obj ((k, j) :: ms) =>
    '{' :: newLine (depth + 1) ++ quote k ++ ':' :: ' ' :: prettyChars (depth + 1) j ++
      prettyMembers depth ms
  | null => chars null
  | bool b => chars (bool b)
  | num n => chars (num n)
  | str s => chars (str s)

/-- The further items of an array at the given depth, and its end. -/
def prettyItems (depth : Nat) : List Json → List Char
  | [] => newLine depth ++ [']']
  | j :: js => ',' :: newLine (depth + 1) ++ prettyChars (depth + 1) j ++ prettyItems depth js

/-- The further members of an object at the given depth, and its end. -/
def prettyMembers (depth : Nat) : List (String × Json) → List Char
  | [] => newLine depth ++ ['}']
  | (k, j) :: ms =>
    ',' :: newLine (depth + 1) ++ quote k ++ ':' :: ' ' :: prettyChars (depth + 1) j ++
      prettyMembers depth ms

end

/-- The text of a document, indented by two spaces. -/
def pretty (j : Json) : String := String.ofList (prettyChars 0 j)

end DesignTokens.Json

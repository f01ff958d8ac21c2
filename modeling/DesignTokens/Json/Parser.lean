import DesignTokens.Json.Written
import DesignTokens.Text.Hex

/-!
# Reading documents

* `Written.parse? s` : the document as `s` writes it;
* `Json.parseAs? shape s` : the document of the parts that a shape looks at, with the members of
  objects as written;
* `Json.parse? s` : the whole document, in normal form.

Blanks are space, tab and the two line ends. Nothing but blanks may stand around a document, a comma
stands between two items, and control characters in a text are escaped. What is looked at is nested
at most 127 deep.
-/

namespace DesignTokens

namespace Written

/-- The characters that may stand between the parts of a document. -/
def isSpacing (c : Char) : Bool := c == ' ' || c == '\t' || c == '\n' || c == '\r'

def skipSpacing (cs : List Char) : List Char := cs.dropWhile isSpacing

/-! ## Quoted texts -/

/-- The value of the four hexadecimal digits at the start of a text. -/
def takeHex4? : List Char → Option (Nat × List Char)
  | a :: b :: c :: d :: cs => (Text.hexNumber? [a, b, c, d]).map fun n => (n, cs)
  | _ => none

/-- The second half of a surrogate pair, written as an escape, at the start of a text. -/
def takeLowSurrogate? : List Char → Option (Nat × List Char)
  | '\\' :: 'u' :: cs => (takeHex4? cs).filter fun (n, _) => 0xDC00 ≤ n && n < 0xE000
  | _ => none

/-- The character of a four-digit escape whose backslash and letter have been taken; half a
surrogate pair has none. -/
def takeCodePoint? (cs : List Char) : Option (Option Char × List Char) := do
  let (n, cs) ← takeHex4? cs
  if n < 0xD800 || 0xE000 ≤ n then some (some (Char.ofNat n), cs)
  else if 0xDC00 ≤ n then some (none, cs)
  else match takeLowSurrogate? cs with
    | some (m, cs) => some (some (Char.ofNat (0x10000 + (n - 0xD800) * 0x400 + (m - 0xDC00))), cs)
    | none => some (none, cs)

/-- The character of an escape whose backslash has been taken, if it has one. -/
def takeEscape? : List Char → Option (Option Char × List Char)
  | '"' :: cs => some (some '"', cs)
  | '\\' :: cs => some (some '\\', cs)
  | '/' :: cs => some (some '/', cs)
  | 'b' :: cs => some (some (Char.ofNat 8), cs)
  | 'f' :: cs => some (some (Char.ofNat 12), cs)
  | 'n' :: cs => some (some '\n', cs)
  | 'r' :: cs => some (some '\r', cs)
  | 't' :: cs => some (some '\t', cs)
  | 'u' :: cs => takeCodePoint? cs
  | _ => none

/-- A character before others; there is none if one of them is missing. -/
def before (c : Option Char) (cs : Option (List Char)) : Option (List Char) := do
  some ((← c) :: (← cs))

/-- The characters up to the closing quote, if each escape has one, and what follows it. -/
def takeQuoted? : Nat → List Char → Option (Option (List Char) × List Char)
  | 0, _ => none
  | _, [] => none
  | fuel + 1, c :: cs =>
    if c = '"' then some (some [], cs)
    else if c = '\\' then do
      let (d, cs) ← takeEscape? cs
      let (ds, cs) ← takeQuoted? fuel cs
      some (before d ds, cs)
    else if c.toNat < 32 then none
    else do
      let (ds, cs) ← takeQuoted? fuel cs
      some (before (some c) ds, cs)

/-- The text whose opening quote has been taken, if it has a value, and what follows its closing
quote. -/
def takeText? (fuel : Nat) (cs : List Char) : Option (Option String × List Char) :=
  (takeQuoted? fuel cs).map fun (ds, rest) => (ds.map String.ofList, rest)

/-- The quoted text at the start of a member, and what follows the colon. -/
def takeName? (fuel : Nat) : List Char → Option (Option String × List Char)
  | '"' :: cs => do
    let (name, cs) ← takeText? fuel cs
    match skipSpacing cs with
    | ':' :: cs => some (name, skipSpacing cs)
    | _ => none
  | _ => none

/-! ## Documents -/

mutual

/-- The document at the start of a text, and the rest of the text. -/
def takeValue? : Nat → List Char → Option (Written × List Char)
  | 0, _ => none
  | fuel + 1, cs =>
    match cs with
    | 'n' :: 'u' :: 'l' :: 'l' :: cs => some (null, cs)
    | 't' :: 'r' :: 'u' :: 'e' :: cs => some (bool true, cs)
    | 'f' :: 'a' :: 'l' :: 's' :: 'e' :: cs => some (bool false, cs)
    | '"' :: cs => (takeText? fuel cs).map fun (s, cs) => (str s, cs)
    | '[' :: cs =>
      match skipSpacing cs with
      | ']' :: cs => some (arr [], cs)
      | cs => do
        let (w, cs) ← takeValue? fuel cs
        let (ws, cs) ← takeItems? fuel (skipSpacing cs)
        some (arr (w :: ws), cs)
    | '{' :: cs =>
      match skipSpacing cs with
      | '}' :: cs => some (obj [], cs)
      | cs => do
        let (name, cs) ← takeName? fuel cs
        let (w, cs) ← takeValue? fuel cs
        let (ms, cs) ← takeMembers? fuel (skipSpacing cs)
        some (obj ((name, w) :: ms), cs)
    | cs => (Numeral.take? cs).map fun (n, cs) => (num n, cs)

/-- The further items of an array up to its end. -/
def takeItems? : Nat → List Char → Option (List Written × List Char)
  | 0, _ => none
  | fuel + 1, cs =>
    match cs with
    | ']' :: cs => some ([], cs)
    | ',' :: cs => do
      let (w, cs) ← takeValue? fuel (skipSpacing cs)
      let (ws, cs) ← takeItems? fuel (skipSpacing cs)
      some (w :: ws, cs)
    | _ => none

/-- The further members of an object up to its end. -/
def takeMembers? : Nat → List Char → Option (List (Option String × Written) × List Char)
  | 0, _ => none
  | fuel + 1, cs =>
    match cs with
    | '}' :: cs => some ([], cs)
    | ',' :: cs => do
      let (name, cs) ← takeName? fuel (skipSpacing cs)
      let (w, cs) ← takeValue? fuel cs
      let (ms, cs) ← takeMembers? fuel (skipSpacing cs)
      some ((name, w) :: ms, cs)
    | _ => none

end

/-- The document as characters write it. Each step takes a character, and a value and what follows
it are two steps, so the fuel suffices. -/
def parseChars? (cs : List Char) : Option Written := do
  let (w, rest) ← takeValue? (2 * cs.length + 2) (skipSpacing cs)
  if (skipSpacing rest).isEmpty then some w else none

def parse? (s : String) : Option Written := parseChars? s.toList

end Written

namespace Json

/-- The greatest depth of what is looked at in a document. -/
def maxDepth : Nat := 127

/-- The document of the parts that a shape looks at, with the members of objects as written. -/
def parseAs? (shape : Shape) (s : String) : Option Json :=
  (Written.parse? s).bind (Written.read? maxDepth shape)

def parse? (s : String) : Option Json := (parseAs? .whole s).map normal

end Json

end DesignTokens

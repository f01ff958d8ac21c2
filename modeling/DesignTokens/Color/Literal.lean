import DesignTokens.Decimal.Reader
import DesignTokens.Text.Blank
import DesignTokens.Text.Pieces
import DesignTokens.Color.Model

/-!
# Colour literals

* `Color.parse? s` : the colour that `s` writes: `transparent`, `#` and 3, 4, 6 or 8 hexadecimal
  digits, or `rgb`, `rgba`, `hsl`, `hsla` or `oklch` with arguments in parentheses;
* `Color.oklchLightness? s` : the lightness of an `oklch` literal.

Case and blanks around a literal do not matter. The arguments stand between commas or blanks, and an
alpha comes fourth or after a slash. Numbers are finite.
-/

namespace DesignTokens.Color

/-! ## Arguments -/

/-- The channels and the alpha between the parentheses. -/
structure Arguments where
  channels : List (List Char)
  alpha : Option (List Char)
  deriving DecidableEq, Repr

/-- The part before the first slash and the trimmed part after it. -/
def cutAlpha (body : List Char) : List Char × Option (List Char) :=
  match Text.cutAt (· == '/') body with
  | some (main, alpha) => (main, some (Text.trim alpha))
  | none => (body, none)

def argumentWords (main : List Char) : List (List Char) :=
  (Text.pieces (fun c => c == ',' || Text.isBlank c) main).filter fun w => !w.isEmpty

/-- Splits the text between the parentheses; there is at least one channel. -/
def Arguments.ofChars? (body : List Char) : Option Arguments :=
  match cutAlpha body with
  | (main, some alpha) =>
    let ws := argumentWords main
    if ws.isEmpty then none else some ⟨ws, some alpha⟩
  | (main, none) =>
    match argumentWords main with
    | [] => none
    | [a, b, c, d] => some ⟨[a, b, c], some d⟩
    | ws => some ⟨ws, none⟩

/-- A number, or `scale` applied to the number before a percent sign. -/
def portion? (scale : Float → Float) (cs : List Char) : Option Float :=
  match Text.stripEnd? ['%'] cs with
  | some p => (Decimal.readFinite? p).map scale
  | none => Decimal.readFinite? cs

def rgbChannel? (cs : List Char) : Option Float := portion? (· * 2.55) cs

/-- An alpha, which is one if it is not given. -/
def alphaChannel? : Option (List Char) → Option Float
  | none => some 1.0
  | some cs => portion? (· / 100.0) cs

/-- A percentage cut to [0, 1]; the sign may be missing or repeated. -/
def percentage? (cs : List Char) : Option Float :=
  (Decimal.readFinite? (Text.dropEndWhile (· == '%') cs)).map fun x => clamp 0.0 1.0 (x / 100.0)

/-- A text without any number of `deg` at its end, given the text reversed. -/
def dropDegrees : List Char → List Char
  | 'g' :: 'e' :: 'd' :: cs => dropDegrees cs
  | cs => cs

/-- A hue in degrees; the unit may be missing or repeated. -/
def hue? (cs : List Char) : Option Float := Decimal.readFinite? (dropDegrees cs.reverse).reverse

/-- A lightness cut to [0, 1]. -/
def lightness? (cs : List Char) : Option Float := (portion? (· / 100.0) cs).map (clamp 0.0 1.0)

/-- A chroma, of which 0.4 is a hundred percent; a negative one counts as zero. -/
def chroma? (cs : List Char) : Option Float :=
  (Decimal.readFinite? (Text.dropEndWhile (· == '%') cs)).map fun x =>
    let c := if (Text.stripEnd? ['%'] cs).isSome then x / 100.0 * 0.4 else x
    if c < 0.0 then 0.0 else c

/-! ## Literals -/

/-- The digits of the short notation, three or four, each written twice. -/
def lengthen (ds : List Nat) : List Nat :=
  if ds.length = 3 || ds.length = 4 then ds.flatMap fun d => [d, d] else ds

def hexChannel (x y : Nat) : Float := Float.ofNat (16 * x + y)

/-- The colour of the values of the digits after the `#`. -/
def ofDigits? (ds : List Nat) : Option Color :=
  match lengthen ds with
  | [r, r', g, g', b, b'] => some ⟨hexChannel r r', hexChannel g g', hexChannel b b', 1.0⟩
  | [r, r', g, g', b, b', a, a'] =>
    some ⟨hexChannel r r', hexChannel g g', hexChannel b b', hexChannel a a' / 255.0⟩
  | _ => none

def ofFunction? (name : List Char) (args : Arguments) : Option Color := do
  let [x, y, z] := args.channels | none
  let alpha ← alphaChannel? args.alpha
  match String.ofList name with
  | "rgb" | "rgba" => some (clamped (← rgbChannel? x) (← rgbChannel? y) (← rgbChannel? z) alpha)
  | "hsl" | "hsla" => some (ofHsl (← hue? x) (← percentage? y) (← percentage? z) alpha)
  | "oklch" => some (ofOklch (← lightness? x) (← chroma? y) (← hue? z) alpha)
  | _ => none

/-- A text without blanks around it, in small letters. -/
def normalize (s : String) : List Char := (Text.trim s.toList).map Char.toLower

/-- The colour of a normalized literal. -/
def ofChars? (cs : List Char) : Option Color :=
  if cs = "transparent".toList then some transparent
  else match cs with
    | '#' :: ds => (ds.mapM Text.hexValue?).bind ofDigits?
    | cs => do
      let (name, rest) ← Text.cutAt (· == '(') cs
      let body ← Text.stripEnd? [')'] rest
      ofFunction? (Text.trim name) (← Arguments.ofChars? body)

def parse? (s : String) : Option Color := ofChars? (normalize s)

def oklchLightness? (s : String) : Option Float := do
  let rest ← Text.stripStart? "oklch(".toList (normalize s)
  let body ← Text.stripEnd? [')'] rest
  let args ← Arguments.ofChars? body
  lightness? (← args.channels.head?)

end DesignTokens.Color

import DesignTokens.Json.Basic
import DesignTokens.Decimal.Reader
import DesignTokens.Decimal.Text

/-!
# Numbers in documents

* `Numeral` : a number as it is written: sign, whole digits, digits after a point, exponent;
* `Numeral.take? cs` : the numeral at the start of `cs`;
* `Numeral.value?` : its value. A whole number that fits 64 bits is kept as such. Any other numeral
  is read as a float: as many leading digits as fit 64 bits, times or divided by a power of ten;
* `Number.chars` : the text of a number. A float has the fewest digits that read back, a tie going
  to the even digit; from `1e16` on and below `1e-5` it has an exponent.
-/

namespace DesignTokens

/-- A number as it is written. -/
structure Numeral where
  negative : Bool
  whole : List Char
  part : List Char
  exponent : Option Int
  deriving DecidableEq, Repr

namespace Numeral

/-- The optional exponent at the start of a text; a letter without digits is no exponent. -/
def takeExponent? : List Char → Option (Option Int × List Char)
  | [] => some (none, [])
  | c :: cs =>
    if c = 'e' || c = 'E' then
      let (negative, rest) := Decimal.takeSign cs
      let ds := rest.takeWhile Char.isDigit
      if ds.isEmpty then none
      else
        let n : Int := Decimal.natOfDigits ds
        some (some (if negative then -n else n), rest.dropWhile Char.isDigit)
    else some (none, c :: cs)

/-- The optional digits after a point at the start of a text; a point needs a digit. -/
def takePart? : List Char → Option (List Char × List Char)
  | '.' :: cs =>
    let ds := cs.takeWhile Char.isDigit
    if ds.isEmpty then none else some (ds, cs.dropWhile Char.isDigit)
  | cs => some ([], cs)

/-- A number needs a digit, and only the number zero starts with the digit zero. -/
def wholeAllowed : List Char → Bool
  | [] => false
  | ['0'] => true
  | c :: _ => c != '0'

/-- The numeral at the start of a text, and the rest. -/
def take? (cs : List Char) : Option (Numeral × List Char) := do
  let (negative, cs) := match cs with
    | '-' :: rest => (true, rest)
    | cs => (false, cs)
  let whole := cs.takeWhile Char.isDigit
  if !wholeAllowed whole then none
  let (part, cs) ← takePart? (cs.dropWhile Char.isDigit)
  let (exponent, cs) ← takeExponent? cs
  some (⟨negative, whole, part, exponent⟩, cs)

/-- Appends digits to `n` while the result fits 64 bits; the second part counts the digits taken. -/
def gather (n : Nat) : List Char → Nat × Nat
  | [] => (n, 0)
  | d :: ds =>
    let m := 10 * n + Decimal.digitValue d
    if m < Decimal.wordLimit then
      let (k, taken) := gather m ds
      (k, taken + 1)
    else (n, 0)

/-- `x` divided by `10 ^ k`, in steps of at most `10 ^ 308`. -/
def scaleDown (x : Float) (k : Nat) : Float :=
  if k ≤ 308 then x / Decimal.ofScaled 1 k
  else if x == 0.0 then x
  else scaleDown (x / Decimal.ofScaled 1 308) (k - 308)
termination_by k

/-- `x * 10 ^ e`, if it is finite. -/
def scale? (x : Float) (e : Int) : Option Float :=
  if e < 0 then some (scaleDown x (-e).toNat)
  else if e ≤ 308 then
    let y := x * Decimal.ofScaled 1 e
    if y.isInf then none else some y
  else if x == 0.0 then some x
  else none

/-- The value of a numeral as a float. Digits that do not fit are counted before the point and
ignored after it. -/
def float? (n : Numeral) : Option Float :=
  let (w, taken) := gather 0 n.whole
  let (m, places) := gather w n.part
  let e := (n.whole.length : Int) - taken - places + n.exponent.getD 0
  (scale? (Decimal.ofRatio m 1) e).map fun x => if n.negative then -x else x

/-- The whole number that a numeral writes, if it has neither point nor exponent and fits 64 bits;
`-0` is none. -/
def int? (n : Numeral) : Option Int :=
  let m := Decimal.natOfDigits n.whole
  if !n.part.isEmpty || n.exponent.isSome then none
  else if n.negative then (if 0 < m && 2 * m ≤ Decimal.wordLimit then some (-(m : Int)) else none)
  else if m < Decimal.wordLimit then some m else none

/-- The value of a numeral; one that is too large for a float has none. -/
def value? (n : Numeral) : Option Number :=
  match n.int? with
  | some i => some (.int i)
  | none => n.float?.map .float

end Numeral

/-! ## The text of a number -/

namespace Number

/-- An exponent with its sign always written. -/
def exponentChars (e : Int) : List Char :=
  (if e < 0 then '-' else '+') :: Decimal.digitsOf e.natAbs

/-- A decimal with one digit before the point, or no point if it has one digit, and an exponent. -/
def scientific (s : Decimal.Scaled) : List Char :=
  let ds := Decimal.digitsOf s.coefficient
  let e := s.power + ds.length - 1
  (match ds with
    | [] => []
    | [d] => [d]
    | d :: rest => d :: '.' :: rest) ++ 'e' :: exponentChars e

/-- A decimal without exponent if its first digit stands from `10 ^ (-5)` up to `10 ^ 15`. -/
def decimalChars (s : Decimal.Scaled) : List Char :=
  let top := s.power + (Decimal.digitsOf s.coefficient).length
  if -5 < top && top ≤ 16 then
    Decimal.positional s ++ (if 0 ≤ s.power then ['.', '0'] else [])
  else scientific s

/-- The text of a float; one that is not finite has none and `null` stands in its place. -/
def floatChars (x : Float) : List Char :=
  if x.isFinite then
    Decimal.withSign x
      (if x == 0.0 then ['0', '.', '0'] else decimalChars (Decimal.shortest .toEven x))
  else ['n', 'u', 'l', 'l']

def intChars (n : Int) : List Char :=
  if n < 0 then '-' :: Decimal.digitsOf n.natAbs else Decimal.digitsOf n.natAbs

def chars : Number → List Char
  | int n => intChars n
  | float x => floatChars x

end Number

end DesignTokens

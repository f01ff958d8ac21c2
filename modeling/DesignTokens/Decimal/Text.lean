import DesignTokens.Decimal.Shortest

/-!
# The texts of a float

* `positional s` : the digits of a decimal with a point where it belongs, or none;
* `plain x` : how a message shows a float: the fewest digits that read back, never an exponent, no
  `.0`, a tie going up; `-0`, `inf`, `-inf` and `NaN`;
* `roundTo3 x` : `x` rounded to thousandths, a half away from zero.
-/

namespace DesignTokens.Decimal

def digitsOf (n : Nat) : List Char := Nat.toDigits 10 n

/-- The digits of a decimal with a point where it belongs: zeros are filled in on either side, and
a whole number has no point. -/
def positional (s : Scaled) : List Char :=
  let ds := digitsOf s.coefficient
  if 0 ≤ s.power then
    if s.coefficient = 0 then ds else ds ++ List.replicate s.power.toNat '0'
  else
    let places := (-s.power).toNat
    if places < ds.length then
      ds.take (ds.length - places) ++ '.' :: ds.drop (ds.length - places)
    else '0' :: '.' :: (List.replicate (places - ds.length) '0' ++ ds)

def withSign (x : Float) (cs : List Char) : List Char := if isNegative x then '-' :: cs else cs

def plainChars (x : Float) : List Char :=
  if x.isNaN then ['N', 'a', 'N']
  else withSign x (if x.isInf then ['i', 'n', 'f'] else positional (shortest .up x))

def plain (x : Float) : String := String.ofList (plainChars x)

/-- Rounded to thousandths, a half away from zero. -/
def roundTo3 (x : Float) : Float := (x * 1000.0).round / 1000.0

end DesignTokens.Decimal

import DesignTokens.Decimal.Nearest

/-!
# Reading a decimal text

`read? cs` is the float nearest to the decimal that `cs` writes: an optional sign, digits with at
most one point among or around them, and an optional exponent. The words `inf`, `infinity` and `nan`
are read in any case. Nothing may stand before or after, and digits are ASCII digits.
-/

namespace DesignTokens.Decimal

def digitValue (c : Char) : Nat := c.toNat - 48

/-- The least whole number that does not fit 64 bits. -/
def wordLimit : Nat := 0x10000000000000000

def natOfDigits (cs : List Char) : Nat := cs.foldl (fun n c => 10 * n + digitValue c) 0

/-- Splits off an optional sign; `true` is a minus. -/
def takeSign : List Char → Bool × List Char
  | '-' :: cs => (true, cs)
  | '+' :: cs => (false, cs)
  | cs => (false, cs)

/-- The exponent after the letter: an optional sign and at least one digit, then the end. -/
def readExponent? (cs : List Char) : Option Int :=
  let (negative, ds) := takeSign cs
  if !ds.isEmpty && ds.all Char.isDigit then
    some (if negative then -(natOfDigits ds : Int) else (natOfDigits ds : Int))
  else none

/-- The end of a decimal text: nothing, or an exponent. -/
def readTail? : List Char → Option Int
  | [] => some 0
  | c :: cs => if c = 'e' || c = 'E' then readExponent? cs else none

/-- The digits before and after the point, and what follows them. -/
def takeDigits (cs : List Char) : List Char × List Char × List Char :=
  let whole := cs.takeWhile Char.isDigit
  match cs.dropWhile Char.isDigit with
  | '.' :: rest => (whole, rest.takeWhile Char.isDigit, rest.dropWhile Char.isDigit)
  | rest => (whole, [], rest)

/-- The float nearest to an unsigned decimal. -/
def readUnsigned? (cs : List Char) : Option Float :=
  let (whole, part, rest) := takeDigits cs
  if whole.isEmpty && part.isEmpty then none
  else (readTail? rest).map fun e => ofScaled (natOfDigits (whole ++ part)) (e - part.length)

/-- The value of a word for a number that is not finite. -/
def readWord? (cs : List Char) : Option Float :=
  match String.ofList (cs.map Char.toLower) with
  | "inf" => some (1.0 / 0.0)
  | "infinity" => some (1.0 / 0.0)
  | "nan" => some (0.0 / 0.0)
  | _ => none

/-- The float nearest to the decimal that a text writes. -/
def read? (cs : List Char) : Option Float :=
  let (negative, rest) := takeSign cs
  ((readWord? rest).or (readUnsigned? rest)).map fun x => if negative then -x else x

/-- The finite float nearest to the decimal that a text writes. -/
def readFinite? (cs : List Char) : Option Float := (read? cs).filter Float.isFinite

end DesignTokens.Decimal

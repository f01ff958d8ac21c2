import DesignTokens.Decimal.Reader
import DesignTokens.Text.Blank

/-!
# Sizes in values

* `Quantity` : a number with a unit; `length?` is its length in pixels, where a `rem` or an `em` is
  sixteen pixels;
* `Quantity.take? cs` : the quantity at the start of `cs`: an optional sign, digits with at most one
  point, and letters or a percent sign;
* `Quantity.scan s` : the quantities in `s` from left to right. One starts at the start of the text
  or after a blank or one of `( , + * /`, so that digits inside a name are not taken;
* `size? s`, `number? s`, `firstLength? s` : a text that is one size or one number without unit, and
  the first length in a text.

`take?_shorter` is why the scan ends.
-/

namespace DesignTokens

inductive LengthUnit where
  | px
  | rem
  | em
  | percent
  | unitless
  | other (name : String)
  deriving DecidableEq, Repr

/-- The unit of a word of small letters. -/
def LengthUnit.ofName : String → LengthUnit
  | "" => unitless
  | "px" => px
  | "rem" => rem
  | "em" => em
  | name => other name

structure Quantity where
  value : Float
  unit : LengthUnit
  deriving DecidableEq, Repr

namespace Quantity

def pixelsPerEm : Float := 16.0

def length? (q : Quantity) : Option Float :=
  match q.unit with
  | .px => some q.value
  | .rem => some (q.value * pixelsPerEm)
  | .em => some (q.value * pixelsPerEm)
  | _ => none

/-! ## One quantity -/

/-- The unit at the start of a text, and the rest. -/
def takeUnit : List Char → LengthUnit × List Char
  | '%' :: cs => (.percent, cs)
  | cs =>
    (.ofName (String.ofList ((cs.takeWhile Char.isAlpha).map Char.toLower)),
      cs.dropWhile Char.isAlpha)

/-- The number, with its sign, that digits before and after a point write. -/
def valueOf (negative : Bool) (whole part : List Char) : Float :=
  let x := Decimal.ofScaled (Decimal.natOfDigits (whole ++ part)) (-(part.length : Int))
  if negative then -x else x

/-- The quantity at the start of a text, and the rest. -/
def take? (cs : List Char) : Option (Quantity × List Char) :=
  let (negative, unsigned) := Decimal.takeSign cs
  let (whole, part, afterDigits) := Decimal.takeDigits unsigned
  if whole.isEmpty && part.isEmpty then none
  else
    let (unit, rest) := takeUnit afterDigits
    some (⟨valueOf negative whole part, unit⟩, rest)

theorem takeSign_length (cs : List Char) : (Decimal.takeSign cs).2.length ≤ cs.length := by
  unfold Decimal.takeSign
  split <;> simp

theorem length_takeWhile_dropWhile (p : Char → Bool) (cs : List Char) :
    (cs.takeWhile p).length + (cs.dropWhile p).length = cs.length := by
  rw [← List.length_append, List.takeWhile_append_dropWhile]

theorem takeDigits_length (cs : List Char) :
    (Decimal.takeDigits cs).1.length + (Decimal.takeDigits cs).2.1.length +
      (Decimal.takeDigits cs).2.2.length ≤ cs.length := by
  have h := length_takeWhile_dropWhile Char.isDigit cs
  unfold Decimal.takeDigits
  split
  · rename_i rest hr
    have h' := length_takeWhile_dropWhile Char.isDigit rest
    rw [hr] at h
    simp only [List.length_cons] at h ⊢
    omega
  · simp only [List.length_nil]
    omega

theorem takeUnit_length (cs : List Char) : (takeUnit cs).2.length ≤ cs.length := by
  unfold takeUnit
  split
  · simp
  · have := length_takeWhile_dropWhile Char.isAlpha cs
    simp only
    omega

theorem take?_shorter {cs rest : List Char} {q : Quantity} (h : take? cs = some (q, rest)) :
    rest.length < cs.length := by
  have hs := takeSign_length cs
  have hd := takeDigits_length (Decimal.takeSign cs).2
  unfold take? at h
  rcases hsign : Decimal.takeSign cs with ⟨negative, unsigned⟩
  rw [hsign] at h hs hd
  rcases hdigits : Decimal.takeDigits unsigned with ⟨whole, part, afterDigits⟩
  have hu := takeUnit_length afterDigits
  rcases hunit : takeUnit afterDigits with ⟨unit, rest'⟩
  simp only [hdigits, hunit] at h hd hu hs
  split at h
  · simp at h
  · rename_i hne
    simp only [Option.some.injEq, Prod.mk.injEq] at h
    obtain ⟨-, rfl⟩ := h
    cases whole <;> cases part <;> simp at hne hd ⊢ <;> omega

/-! ## All quantities -/

/-- A quantity may start after such a character. -/
def isDelimiter (c : Char) : Bool :=
  Text.isBlank c || c == '(' || c == ',' || c == '+' || c == '*' || c == '/'

/-- The quantities in a text, where `boundary` tells whether one may start right at its start. No
quantity ends with a delimiter, so none starts right after another. -/
def scanFrom (boundary : Bool) (cs : List Char) : List Quantity :=
  match cs with
  | [] => []
  | c :: tail =>
    if boundary then
      match _h : take? (c :: tail) with
      | some (q, rest) => q :: scanFrom false rest
      | none => scanFrom (isDelimiter c) tail
    else scanFrom (isDelimiter c) tail
termination_by cs.length
decreasing_by
  · exact take?_shorter _h
  · simp
  · simp

/-- The quantities in a text, from left to right. -/
def scan (s : String) : List Quantity := scanFrom true s.toList

/-- The text, blanks around it apart, is one quantity. -/
def whole? (s : String) : Option Quantity :=
  match take? (Text.trim s.toList) with
  | some (q, []) => some q
  | _ => none

end Quantity

/-- The size in pixels that a text is: a length, or a number without unit. -/
def size? (s : String) : Option Float :=
  (Quantity.whole? s).bind fun q => if q.unit = .unitless then some q.value else q.length?

def number? (s : String) : Option Float :=
  (Quantity.whole? s).bind fun q => if q.unit = .unitless then some q.value else none

/-- The first length in a text, or the size that the text is. -/
def firstLength? (s : String) : Option Float :=
  ((Quantity.scan s).findSome? Quantity.length?).or (size? s)

end DesignTokens

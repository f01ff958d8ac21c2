import DesignTokens.Text.Hex

/-!
# Colours

* `Color` : red, green and blue, gamma-encoded from 0 to 255, and an alpha from 0 to 1;
* `Color.clamped` : the colour whose parts are moved into these ranges; NaN is left;
* `Color.hex` : `#rrggbb`, with two more digits for an alpha below one.
-/

namespace DesignTokens

/-- A colour of the standard red-green-blue space. -/
structure Color where
  red : Float
  green : Float
  blue : Float
  alpha : Float
  deriving DecidableEq, Repr

namespace Color

/-- The nearest number between `lo` and `hi`; NaN is left. -/
def clamp (lo hi x : Float) : Float := if x < lo then lo else if hi < x then hi else x

def clamped (r g b a : Float) : Color :=
  ⟨clamp 0.0 255.0 r, clamp 0.0 255.0 g, clamp 0.0 255.0 b, clamp 0.0 1.0 a⟩

def white : Color := ⟨255.0, 255.0, 255.0, 1.0⟩

/-- Black that is not seen. -/
def transparent : Color := ⟨0.0, 0.0, 0.0, 0.0⟩

def isOpaque (c : Color) : Bool := 1.0 ≤ c.alpha

/-- The whole number from 0 to 255 nearest to a channel; 0 for NaN. -/
def byte (x : Float) : Nat := (clamp 0.0 255.0 x.round).toUInt8.toNat

def hexByte (x : Float) : List Char := Text.hexDigits 2 (byte x)

def hex (c : Color) : String :=
  String.ofList ('#' :: hexByte c.red ++ hexByte c.green ++ hexByte c.blue ++
    if c.isOpaque then [] else hexByte (c.alpha * 255.0))

end Color

end DesignTokens

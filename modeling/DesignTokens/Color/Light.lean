import DesignTokens.Color.Basic

/-!
# Light

* `Color.decodeGamma`, `Color.encodeGamma` : from an encoded channel in [0, 1] to linear light and
  back;
* `Color.luminance` : the relative luminance; alpha plays no part;
* `Color.contrastRatio` : of two luminances, at least one;
* `Color.laidOn`, `Color.flattenOver` : a colour laid on a backdrop in linear light.
-/

namespace DesignTokens.Color

/-- The linear light of an encoded channel. -/
def decodeGamma (c : Float) : Float :=
  if c ≤ 0.04045 then c / 12.92 else Float.pow ((c + 0.055) / 1.055) 2.4

/-- The encoded channel of linear light. -/
def encodeGamma (c : Float) : Float :=
  if c ≤ 0.0031308 then c * 12.92 else 1.055 * Float.pow c (1.0 / 2.4) - 0.055

structure Light where
  red : Float
  green : Float
  blue : Float
  deriving DecidableEq, Repr

def light (c : Color) : Light :=
  ⟨decodeGamma (c.red / 255.0), decodeGamma (c.green / 255.0), decodeGamma (c.blue / 255.0)⟩

/-- The colour of some light, which is cut to [0, 1], with an alpha. -/
def ofLight (l : Light) (alpha : Float) : Color :=
  clamped (encodeGamma (clamp 0.0 1.0 l.red) * 255.0) (encodeGamma (clamp 0.0 1.0 l.green) * 255.0)
    (encodeGamma (clamp 0.0 1.0 l.blue) * 255.0) alpha

def luminance (c : Color) : Float :=
  0.2126 * c.light.red + 0.7152 * c.light.green + 0.0722 * c.light.blue

def contrastRatio (l1 l2 : Float) : Float :=
  if l2 ≤ l1 then (l1 + 0.05) / (l2 + 0.05) else (l2 + 0.05) / (l1 + 0.05)

/-- A share `a` of `x` and the rest of `y`. -/
def mix (a x y : Float) : Float := x * a + y * (1.0 - a)

/-- A colour laid on an opaque backdrop. -/
def laidOn (c backdrop : Color) : Color :=
  let f := c.light
  let b := backdrop.light
  ofLight ⟨mix c.alpha f.red b.red, mix c.alpha f.green b.green, mix c.alpha f.blue b.blue⟩ 1.0

/-- A colour as it is seen on a backdrop: an opaque one hides it. -/
def flattenOver (c backdrop : Color) : Color := if c.isOpaque then c else c.laidOn backdrop

end DesignTokens.Color

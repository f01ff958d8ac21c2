import DesignTokens.Decimal.Nearest
import DesignTokens.Color.Light

/-!
# Colour models

* `Color.ofHsl` : from hue, saturation and lightness;
* `Color.ofOklch` : from perceptual lightness, chroma and hue.

Hues are in degrees and go around.
-/

namespace DesignTokens.Color

/-- The channel at the place `t` of the colour circle, between the levels `p` and `q`. -/
def hueChannel (p q t : Float) : Float :=
  let t := Decimal.remainderUp t 1
  if t < 1.0 / 6.0 then p + (q - p) * 6.0 * t
  else if t < 0.5 then q
  else if t < 2.0 / 3.0 then p + (q - p) * (2.0 / 3.0 - t) * 6.0
  else p

/-- A colour of hue `h` in degrees, saturation `s` and lightness `l`, both in [0, 1]. -/
def ofHsl (h s l alpha : Float) : Color :=
  if s == 0.0 then clamped (l * 255.0) (l * 255.0) (l * 255.0) alpha
  else
    let turn := Decimal.remainderUp h 360 / 360.0
    let q := if l < 0.5 then l * (1.0 + s) else l + s - l * s
    let p := 2.0 * l - q
    clamped (hueChannel p q (turn + 1.0 / 3.0) * 255.0) (hueChannel p q turn * 255.0)
      (hueChannel p q (turn - 1.0 / 3.0) * 255.0) alpha

def degree : Float := 3.14159265358979323846264338327950288 / 180.0

/-- The light of lightness `l`, chroma `c` and hue `h` in degrees, cut to [0, 1]. -/
def oklchLight (l c h : Float) : Light :=
  let angle := h * degree
  let a := c * angle.cos
  let b := c * angle.sin
  let long := l + 0.3963377774 * a + 0.2158037573 * b
  let middle := l - 0.1055613458 * a - 0.0638541728 * b
  let short := l - 0.0894841775 * a - 1.2914855480 * b
  let l3 := long * long * long
  let m3 := middle * middle * middle
  let s3 := short * short * short
  ⟨clamp 0.0 1.0 (4.0767416621 * l3 - 3.3077115913 * m3 + 0.2309699292 * s3),
   clamp 0.0 1.0 ((-1.2684380046) * l3 + 2.6097574011 * m3 - 0.3413193965 * s3),
   clamp 0.0 1.0 ((-0.0041960863) * l3 - 0.7034186147 * m3 + 1.7076147010 * s3)⟩

/-- A colour of lightness `l` in [0, 1], chroma `c` and hue `h` in degrees. -/
def ofOklch (l c h alpha : Float) : Color := ofLight (oklchLight l c h) alpha

end DesignTokens.Color

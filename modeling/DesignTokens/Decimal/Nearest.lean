/-!
# The binary64 number nearest to a rational

* `roundHalfEven a b` : the whole number nearest to `a / b`, the even one of two;
* `nearestBits a b` : the bits of the non-negative binary64 number nearest to `a / b`;
* `ofRatio a b`, `ofScaled d e` : the float nearest to `a / b`, to `d * 10 ^ e`;
* `mantissa x`, `exponent x` : a finite `|x|` is `mantissa x * 2 ^ exponent x`.

All of it is exact arithmetic on whole numbers; only the last step makes a `Float` of the bits.
-/

namespace DesignTokens.Decimal

/-- The whole number nearest to `a / b`; of two equally near ones the even one. -/
def roundHalfEven (a b : Nat) : Nat :=
  let q := a / b
  let r := a % b
  if 2 * r < b then q
  else if b < 2 * r then q + 1
  else if q % 2 = 0 then q else q + 1

/-- The whole part of the base-two logarithm of `a / b`. -/
def floorLog2 (a b : Nat) : Int :=
  let k : Int := (a.log2 : Int) - (b.log2 : Int)
  let atLeast := if 0 ≤ k then b <<< k.toNat ≤ a else b ≤ a <<< (-k).toNat
  if atLeast then k else k - 1

/-- The number of fractions of a mantissa: two to the 52nd power. -/
def fractions : Nat := 0x10000000000000

def signBit : Nat := 0x8000000000000000

def infinityBits : Nat := 2047 * fractions

/-- The bits of the binary64 number nearest to `a / b`, ties to the even mantissa. A mantissa has
53 binary digits unless that would take the unit below `2 ^ (-1074)`. -/
def nearestBits (a b : Nat) : Nat :=
  if a = 0 then 0
  else
    let q := max (floorLog2 a b - 52) (-1074)
    let m := if 0 ≤ q then roundHalfEven a (b <<< q.toNat) else roundHalfEven (a <<< (-q).toNat) b
    min ((q + 1074).toNat * fractions + m) infinityBits

/-- The float nearest to `a / b`. -/
def ofRatio (a b : Nat) : Float := Float.ofBits (nearestBits a b).toUInt64

/-- The float nearest to `d * 10 ^ e`. Outside the first three cases the power is small; those only
avoid a needless one, since `10 ^ 400` overflows and `10 ^ (-400)` is nearest to zero. -/
def ofScaled (d : Nat) (e : Int) : Float :=
  if d = 0 then Float.ofBits 0
  else if 400 < e then Float.ofBits infinityBits.toUInt64
  else if e < -((d.log2 : Int) + 400) then Float.ofBits 0
  else if 0 ≤ e then ofRatio (d * Nat.pow 10 e.toNat) 1
  else ofRatio d (Nat.pow 10 (-e).toNat)

/-! ## Taking a float apart -/

def biasedExponent (x : Float) : Nat := (x.toBits.toNat / fractions) % 2048

def fraction (x : Float) : Nat := x.toBits.toNat % fractions

/-- The sign bit is set; `-0` has it too. -/
def isNegative (x : Float) : Bool := signBit ≤ x.toBits.toNat

/-- The whole number of units in `|x|`, for finite `x`. -/
def mantissa (x : Float) : Nat :=
  if biasedExponent x = 0 then fraction x else fraction x + fractions

def exponent (x : Float) : Int :=
  if biasedExponent x = 0 then -1074 else (biasedExponent x : Int) - 1075

/-- The numerator of `|x|` over `denominator x`, for finite `x`. -/
def numerator (x : Float) : Nat :=
  if 0 ≤ exponent x then mantissa x <<< (exponent x).toNat else mantissa x

/-- A power of two that makes `|x|` a fraction, for finite `x`. -/
def denominator (x : Float) : Nat :=
  if 0 ≤ exponent x then 1 else 1 <<< (-exponent x).toNat

/-! ## Exact remainders -/

/-- The remainder of `x` divided by `k`, with the sign of `x`. It is a float, so nothing is rounded.
A number that is not finite has none, and the answer is NaN. -/
def remainder (x : Float) (k : Nat) : Float :=
  if x.isFinite then
    let r := ofRatio (numerator x % (k * denominator x)) (denominator x)
    if isNegative x then -r else r
  else 0.0 / 0.0

/-- The remainder of `x` divided by `k` that is not below zero. -/
def remainderUp (x : Float) (k : Nat) : Float :=
  let r := remainder x k
  if r < 0.0 then r + Float.ofNat k else r

end DesignTokens.Decimal

import DesignTokens.Decimal.Nearest

/-!
# The fewest digits that read back

* `Scaled` : a coefficient and a power of ten;
* `shortest tie x` : for finite `x`, the decimal with the fewest digits among those nearest to which
  `|x|` is the float, and of these the one nearest to `|x|`; `tie` decides between two equally near.

For each number of digits only the two neighbours of `|x|` on that grid are tried: if any decimal
of the grid reads back, one of these two does. Seventeen digits always suffice.
-/

namespace DesignTokens.Decimal

/-- The decimal `coefficient * 10 ^ power`. -/
structure Scaled where
  coefficient : Nat
  power : Int
  deriving DecidableEq, Repr

inductive Tie where
  | toEven
  | up
  deriving DecidableEq, Repr

/-- `a / b` is at least `10 ^ k`. -/
def atLeastPower (a b : Nat) (k : Int) : Bool :=
  if 0 ≤ k then b * Nat.pow 10 k.toNat ≤ a else b ≤ a * Nat.pow 10 (-k).toNat

/-- The whole part of the base-ten logarithm of `a / b`. Three tenths of the binary logarithm come
within a few units of it, and the search goes down from above. -/
def floorLog10 (a b : Nat) : Int :=
  let estimate := (floorLog2 a b + 1) * 30103 / 100000 + 1
  let rec down : Nat → Int → Int
    | 0, k => k
    | fuel + 1, k => if atLeastPower a b k then k else down fuel (k - 1)
  down 8 estimate

/-- `|x|` is the float nearest to the decimal. -/
def readsBack (x : Float) (s : Scaled) : Bool :=
  (ofScaled s.coefficient s.power).toBits.toNat = x.toBits.toNat % signBit

/-- The neighbours of `a / b` among the multiples of `10 ^ k`, as a whole number of them, the
remainder, and the divisor: `a / b` lies `remainder / divisor` of a step above the lower one. -/
def lowerNeighbour (a b : Nat) (k : Int) : Nat × Nat × Nat :=
  if 0 ≤ k then
    let d := b * Nat.pow 10 k.toNat
    (a / d, a % d, d)
  else
    let n := a * Nat.pow 10 (-k).toNat
    (n / b, n % b, b)

/-- The lower neighbour is nearer, or equally near and preferred. -/
def preferLower (tie : Tie) (q r d : Nat) : Bool :=
  2 * r < d || (2 * r == d && tie == .toEven && q % 2 == 0)

/-- The nearer one of the two neighbours on the grid of step `10 ^ k` that read back. -/
def onGrid? (tie : Tie) (x : Float) (k : Int) : Option Scaled :=
  let (q, r, d) := lowerNeighbour (numerator x) (denominator x) k
  let lower : Scaled := ⟨q, k⟩
  let upper : Scaled := ⟨q + 1, k⟩
  let fits := fun s => readsBack x s
  if r = 0 then (if fits lower then some lower else none)
  else match fits lower, fits upper with
    | true, true => some (if preferLower tie q r d then lower else upper)
    | true, false => some lower
    | false, true => some upper
    | false, false => none

/-- Moves trailing zeros of the coefficient into the power. -/
def Scaled.trimmed (s : Scaled) : Scaled :=
  let rec go : Nat → Scaled → Scaled
    | 0, s => s
    | fuel + 1, s =>
      if s.coefficient % 10 = 0 && s.coefficient ≠ 0 then
        go fuel ⟨s.coefficient / 10, s.power + 1⟩
      else s
  go s.coefficient.log2 s

/-- The fewest digits that read back as `|x|`, for finite `x`. -/
def shortest (tie : Tie) (x : Float) : Scaled :=
  if mantissa x = 0 then ⟨0, 0⟩
  else
    let top := floorLog10 (numerator x) (denominator x)
    let found := (List.range 17).findSome? fun (n : Nat) => onGrid? tie x (top - n)
    (found.getD ⟨numerator x, 0⟩).trimmed

end DesignTokens.Decimal

/-!
# Hexadecimal digits

* `hexDigit n`, `hexDigits count n` : the small digit of a number below sixteen, and the `count`
  lowest digits of a number, the highest of them first;
* `hexValue? c` : the value of a digit in either case.
-/

namespace DesignTokens.Text

/-- The hexadecimal digit, a small one, of a number below sixteen. -/
def hexDigit (n : Nat) : Char := if n < 10 then Char.ofNat (48 + n) else Char.ofNat (87 + n)

/-- The `count` lowest hexadecimal digits of a number, the highest of them first. -/
def hexDigits (count n : Nat) : List Char :=
  (List.range count).reverse.map fun i => hexDigit ((n >>> (4 * i)) % 16)

def hexValue? (c : Char) : Option Nat :=
  let n := c.toNat
  if 48 ≤ n && n ≤ 57 then some (n - 48)
  else if 97 ≤ n && n ≤ 102 then some (n - 87)
  else if 65 ≤ n && n ≤ 70 then some (n - 55)
  else none

def hexNumber? (cs : List Char) : Option Nat :=
  cs.foldlM (fun n c => (hexValue? c).map (16 * n + ·)) 0

end DesignTokens.Text

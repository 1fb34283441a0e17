/-
The root of a sum of two squares, rounded once: the squares are summed exactly as whole numbers over a common power
of two, and the root is taken to at least 64 bits before rounding. An infinite side makes the result infinite, also
beside NaN.

- `rootOfSquares`: the finite case, on mantissas and exponents.
- `hypotenuse`: all numbers.
-/
import ComplexFormula.Binary64.Nearest

namespace ComplexFormula.Binary64

/-- how many times n has to be multiplied by four to have at least 129 bits -/
def rootScale (n : Nat) : Nat := if n.log2 < 128 then (128 - n.log2) / 2 + 1 else 0

/-- the number nearest to the square root of n · 4^q -/
def rootOf (n : Nat) (q : Int) : Binary64 :=
  let j := rootScale n
  let scaled := n <<< (2 * j)
  let root := scaled.sqrt
  nearest false root (q - j) (root * root != scaled)

/-- the number nearest to the root of (m · 2^q)² + (m' · 2^q')² -/
def rootOfSquares (m : Nat) (q : Int) (m' : Nat) (q' : Int) : Binary64 :=
  let low := min q q'
  let a := m <<< (q - low).toNat
  let b := m' <<< (q' - low).toNat
  if a * a + b * b = 0 then 0 else rootOf (a * a + b * b) low

/-- the distance of the point (x, y) from the origin -/
def hypotenuse (x y : Binary64) : Binary64 :=
  match x.parts, y.parts with
  | .infinite _, _ | _, .infinite _ => infinity
  | .nan, _ => x
  | _, .nan => y
  | .finite _ m q, .finite _ m' q' => rootOfSquares m q m' q'

end ComplexFormula.Binary64

/-
The parts of a binary64 number: sign, whole mantissa and power of two. A finite number is ± m · 2^q with m < 2^53 and
-1074 ≤ q ≤ 971; every exact rule of this library (shortest text, rounding, remainder, root of a sum of squares) is
stated on m and q.

- `parts`: the decoding of the magnitude, eleven bits of exponent above 52 bits of fraction.
-/
import ComplexFormula.Binary64.Basic

namespace ComplexFormula.Binary64

/-- what a number denotes -/
inductive Parts where
  | nan
  | infinite (negative : Bool)
  /-- ± mantissa · 2^exponent; both zeros have mantissa 0 -/
  | finite (negative : Bool) (mantissa : Nat) (exponent : Int)
deriving DecidableEq, Repr

/-- the least exponent, that of every subnormal number -/
def leastExponent : Int := -1074

/-- the parts of a number -/
def parts (x : Binary64) : Parts :=
  let field := x.magnitude / implicitBit
  let fraction := x.magnitude % implicitBit
  if field = specialField then if fraction = 0 then .infinite x.isNegative else .nan
  else if field = 0 then .finite x.isNegative fraction leastExponent
  else .finite x.isNegative (fraction + implicitBit) (field + leastExponent - 1)

end ComplexFormula.Binary64

/-
Roundings, direction and the principal power, the operations on complex numbers that a formula uses beyond the
elementary functions.

- `ceilTo`, `floorTo`, `roundTo`: both parts to a number of decimal places.
- `direction`: z / |z|.
- `principalPower`: a power that stays on the real line and stays exact where it can.
-/
import ComplexFormula.Binary64.Remainder
import ComplexFormula.Complex.Elementary

namespace ComplexFormula.Complex

/-! ## Rounding -/

/-- the nearest whole number, a half going up; x + 1/2 is never formed, it may not be representable -/
def roundHalfUp (x : Binary64) : Binary64 :=
  let low := x.floor
  if x - low ≥ 0.5 then low + 1 else low

/-- both parts rounded to multiples of 10^-places -/
def roundParts (round : Binary64 → Binary64) (places : Int) (z : Complex) : Complex :=
  let scale := Binary64.powerOf 10 places
  ⟨round (z.re * scale) / scale, round (z.im * scale) / scale⟩

def ceilTo (z : Complex) (places : Int) : Complex := roundParts Binary64.ceil places z

def floorTo (z : Complex) (places : Int) : Complex := roundParts Binary64.floor places z

/-- a half goes toward positive infinity -/
def roundTo (z : Complex) (places : Int) : Complex := roundParts roundHalfUp places z

/-! ## Direction and power -/

/-- the number of modulus one in the direction of z; zero for zero -/
def direction (z : Complex) : Complex := if z.norm == 0 then zero else z.divReal z.norm

/-- the largest magnitude of an exponent that is applied by repeated multiplication -/
def wholePowerLimit : Binary64 := 2147483647

/-- x is a whole number of moderate size -/
def isWholeExponent (x : Binary64) : Bool := x.fractionPart == 0 && x.abs ≤ wholePowerLimit

/-- the principal power: zero to a real power is settled directly, a positive real number to a real power stays real,
a whole power is a repeated product, and everything else goes through the logarithm -/
def principalPower (z w : Complex) : Complex :=
  if w.im == 0 then
    if z.isZero ∧ w.re == 0 then one
    else if z.isZero ∧ w.re > 0 then zero
    else if z.im == 0 ∧ z.re > 0 then ofReal (z.re.pow w.re)
    else if isWholeExponent w.re then wholePower z w.re.toInt
    else power z w
  else power z w

end ComplexFormula.Complex

/-
Complex numbers in rectangular form over binary64, with the four operations in their plain textbook form: no rescaling
and no fused steps, so that every part of a result is a fixed sequence of rounded operations.

- `Complex`: a pair of numbers; `==` compares part by part.
- `+ - * /` and negation.
- `Complex.text`: `1-2i`.
-/
import ComplexFormula.Binary64.Arithmetic
import ComplexFormula.Binary64.Hypotenuse
import ComplexFormula.Decimal.Notation

namespace ComplexFormula

/-- a complex number by its real and imaginary part -/
structure Complex where
  re : Binary64
  im : Binary64
deriving DecidableEq, BEq, Repr

namespace Complex

/-! ## Constants and parts -/

/-- a real number as a complex one -/
def ofReal (x : Binary64) : Complex := ⟨x, 0⟩

def zero : Complex := ofReal 0

def one : Complex := ofReal 1

def two : Complex := ofReal 2

/-- the imaginary unit -/
def unit : Complex := ⟨0, 1⟩

/-- both parts are zeros, of either sign -/
def isZero (z : Complex) : Bool := z.re == 0 && z.im == 0

/-- the modulus -/
def norm (z : Complex) : Binary64 := z.re.hypotenuse z.im

/-- the angle, in (-π, π] -/
def arg (z : Complex) : Binary64 := z.re.angle z.im

/-- the sum of the squares of the parts -/
def normSquare (z : Complex) : Binary64 := z.re * z.re + z.im * z.im

/-! ## Arithmetic -/

instance : Neg Complex where
  neg z := ⟨-z.re, -z.im⟩

instance : Add Complex where
  add z w := ⟨z.re + w.re, z.im + w.im⟩

instance : Sub Complex where
  sub z w := ⟨z.re - w.re, z.im - w.im⟩

instance : Mul Complex where
  mul z w := ⟨z.re * w.re - z.im * w.im, z.re * w.im + z.im * w.re⟩

instance : Div Complex where
  div z w := ⟨(z.re * w.re + z.im * w.im) / w.normSquare, (z.im * w.re - z.re * w.im) / w.normSquare⟩

/-- both parts divided by a real number -/
def divReal (z : Complex) (x : Binary64) : Complex := ⟨z.re / x, z.im / x⟩

/-- the inverse of z -/
def inverse (z : Complex) : Complex := ⟨z.re / z.normSquare, -z.im / z.normSquare⟩

/-! ## Text -/

/-- the magnitude of a part whose sign is written apart; a negative zero keeps its own sign -/
def partText (x : Binary64) : String := Decimal.text (if x < 0 then 0 - x else x)

/-- real part, sign, imaginary part and the letter i -/
def text (z : Complex) : String :=
  (if z.re < 0 then "-" else "") ++ partText z.re ++ (if z.im < 0 then "-" else "+") ++ partText z.im ++ "i"

end Complex

end ComplexFormula

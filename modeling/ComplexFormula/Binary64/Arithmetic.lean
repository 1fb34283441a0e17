/-
Rounded operations on binary64 numbers. On numbers they are those of `Float`; what they add is the sign of NaN: an
operand that is NaN is passed on as it is, the first one if there are two, and an operation that has no value at its
operands, such as ∞ - ∞ or 0/0, yields the negative NaN.

- `lift`, `lift₂`: the rule for NaN around an operation on `Float`.
- `+ - * /`, roundings to whole numbers, and the elementary functions.
-/
import ComplexFormula.Binary64.Nearest

namespace ComplexFormula.Binary64

/-! ## The rule for NaN -/

/-- what an operation without a value yields -/
def invalid : Binary64 := -nan

/-- the result of an operation -/
def ofFloat (x : Float) : Binary64 := if x.isNaN then invalid else ⟨x.toBits⟩

/-- the operand of an operation -/
def toFloat (x : Binary64) : Float := .ofBits x.bits

/-- an operation of one operand -/
def lift (f : Float → Float) (x : Binary64) : Binary64 := if x.isNaN then x else ofFloat (f x.toFloat)

/-- an operation of two operands -/
def lift₂ (f : Float → Float → Float) (x y : Binary64) : Binary64 :=
  if x.isNaN then x else if y.isNaN then y else ofFloat (f x.toFloat y.toFloat)

/-! ## Arithmetic -/

instance : Add Binary64 := ⟨lift₂ (· + ·)⟩

instance : Sub Binary64 := ⟨lift₂ (· - ·)⟩

instance : Mul Binary64 := ⟨lift₂ (· * ·)⟩

instance : Div Binary64 := ⟨lift₂ (· / ·)⟩

instance : OfScientific Binary64 := ⟨fun m negative e => ofFloat (.ofScientific m negative e)⟩

/-- the greatest whole number that is not above x -/
def floor : Binary64 → Binary64 := lift Float.floor

/-- the least whole number that is not below x -/
def ceil : Binary64 → Binary64 := lift Float.ceil

def sqrt : Binary64 → Binary64 := lift Float.sqrt

/-! ## Elementary functions -/

def exp : Binary64 → Binary64 := lift Float.exp

/-- the natural logarithm -/
def log : Binary64 → Binary64 := lift Float.log

def sin : Binary64 → Binary64 := lift Float.sin

def cos : Binary64 → Binary64 := lift Float.cos

def sinh : Binary64 → Binary64 := lift Float.sinh

def cosh : Binary64 → Binary64 := lift Float.cosh

/-- the angle of the point (x, y), in [-π, π] -/
def angle (x y : Binary64) : Binary64 := lift₂ (fun x y => y.atan2 x) x y

/-- x to the power y; a power of one and a zeroth power are one, also beside NaN -/
def pow (x y : Binary64) : Binary64 := if x == 1 ∨ y == 0 then 1 else lift₂ Float.pow x y

end ComplexFormula.Binary64

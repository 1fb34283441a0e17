/-
Values: a real or a complex number. The two forms of one number are told apart by `==` and by nothing else; every
operation sees a value through `toComplex`.

- `Value.toComplex`: the one place where a real number is widened.
- `Value.isReal`: no imaginary part, in either form.
- `ToValue`: the forms in which a value can be passed.
-/
import ComplexFormula.Complex.Basic

namespace ComplexFormula

/-- a real or a complex number -/
inductive Value where
  | real (x : Binary64)
  | complex (z : Complex)
deriving DecidableEq, BEq, Repr

namespace Value

/-- the value as a complex number -/
def toComplex : Value → Complex
  | .real x => .ofReal x
  | .complex z => z

/-- the value has no imaginary part -/
def isReal : Value → Bool
  | .real _ => true
  | .complex z => z.im == 0

/-- the text of the number in its own form -/
def text : Value → String
  | .real x => Decimal.text x
  | .complex z => z.text

@[simp] theorem toComplex_complex (z : Complex) : (complex z).toComplex = z := rfl

end Value

/-- what can be passed as a value -/
class ToValue (α : Type) where
  toValue : α → Value

export ToValue (toValue)

instance : ToValue Value := ⟨id⟩

instance : ToValue Binary64 := ⟨.real⟩

instance : ToValue Complex := ⟨.complex⟩

/-- real part and imaginary part -/
instance : ToValue (Binary64 × Binary64) := ⟨fun p => .complex ⟨p.1, p.2⟩⟩

end ComplexFormula

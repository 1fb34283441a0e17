/-
Elementary functions of a complex variable, each by its closed form in real exponentials, logarithms and circular
functions. The principal branch is taken throughout: arguments of the logarithm lie in (-π, π].

- `exp`, `ln`, `sqrt`, `power` and `wholePower`.
- `sin`, `cos`, `tan`, `sinh`, `cosh`, `tanh` by the addition theorems.
- `asin`, `acos`, `atan`, `asinh`, `acosh`, `atanh` by logarithms.
-/
import ComplexFormula.Complex.Basic

namespace ComplexFormula.Complex

/-! ## Exponential and logarithm -/

/-- the number with modulus r and angle θ -/
def polar (r θ : Binary64) : Complex := ⟨r * θ.cos, r * θ.sin⟩

/-- the exponential; an infinite or undefined real part decides alone where the angle means nothing -/
def exp (z : Complex) : Complex :=
  if z.re.isInf ∧ z.re < 0 ∧ ¬z.im.isFinite then zero
  else if z.re.isInf ∧ 0 < z.re ∧ (z.im == 0 ∨ ¬z.im.isFinite) then
    ⟨z.re, if z.im.isInf then Binary64.nan else z.im⟩
  else if z.re.isNaN ∧ z.im == 0 then z
  else polar z.re.exp z.im

/-- the principal logarithm -/
def ln (z : Complex) : Complex := ⟨z.norm.log, z.arg⟩

/-- x, or -x if y has a minus sign -/
def withSignOf (y x : Binary64) : Binary64 := if y.isNegative then -x else x

/-- the principal square root; the sign of the real part decides on the real line, also that of NaN -/
def sqrt (z : Complex) : Complex :=
  if z.im == 0 then
    if z.re.isNegative then ⟨0, withSignOf z.im (-z.re).sqrt⟩ else ⟨z.re.sqrt, z.im⟩
  else if z.re == 0 then
    let x := (z.im.abs / 2).sqrt
    ⟨x, withSignOf z.im x⟩
  else polar z.norm.sqrt (z.arg / 2)

/-! ## Powers -/

/-- the principal power through the logarithm; the zeroth power of everything is one -/
def power (z w : Complex) : Complex := if w.isZero then one else exp (w * z.ln)

/-- base^n for n ≥ 1 by repeated squaring; nothing has been multiplied in yet as long as `acc?` is empty, so that no
product with one is formed. `fuel` bounds the number of binary digits of n. -/
def powerLoop : Nat → Complex → Nat → Option Complex → Complex
  | 0, base, _, _ => base
  | fuel + 1, base, n, acc? =>
    let acc? := if n % 2 = 1 then some (acc?.elim base (· * base)) else acc?
    if n < 2 then acc?.getD base else powerLoop fuel (base * base) (n / 2) acc?

/-- z^n for a whole n, a negative power being a power of the inverse -/
def wholePower (z : Complex) (n : Int) : Complex :=
  if n = 0 then one
  else powerLoop (n.natAbs.log2 + 1) (if n < 0 then z.inverse else z) n.natAbs none

/-! ## Circular and hyperbolic functions -/

def sin (z : Complex) : Complex := ⟨z.re.sin * z.im.cosh, z.re.cos * z.im.sinh⟩

def cos (z : Complex) : Complex := ⟨z.re.cos * z.im.cosh, -z.re.sin * z.im.sinh⟩

def sinh (z : Complex) : Complex := ⟨z.re.sinh * z.im.cos, z.re.cosh * z.im.sin⟩

def cosh (z : Complex) : Complex := ⟨z.re.cosh * z.im.cos, z.re.sinh * z.im.sin⟩

def tan (z : Complex) : Complex :=
  let a := z.re + z.re
  let b := z.im + z.im
  divReal ⟨a.sin, b.sinh⟩ (a.cos + b.cosh)

def tanh (z : Complex) : Complex :=
  let a := z.re + z.re
  let b := z.im + z.im
  divReal ⟨a.sinh, b.sin⟩ (a.cosh + b.cos)

/-! ## Inverse functions -/

def asin (z : Complex) : Complex := -unit * ln (sqrt (one - z * z) + unit * z)

def acos (z : Complex) : Complex := -unit * ln (unit * sqrt (one - z * z) + z)

/-- infinite at ±i -/
def atan (z : Complex) : Complex :=
  if z == unit then ⟨0, Binary64.infinity⟩
  else if z == -unit then ⟨0, -Binary64.infinity⟩
  else (ln (one + unit * z) - ln (one - unit * z)) / (two * unit)

def asinh (z : Complex) : Complex := ln (z + sqrt (one + z * z))

def acosh (z : Complex) : Complex := two * ln (sqrt ((z + one) / two) + sqrt ((z - one) / two))

/-- infinite at ±1 -/
def atanh (z : Complex) : Complex :=
  if z == one then ⟨Binary64.infinity, 0⟩
  else if z == -one then ⟨-Binary64.infinity, 0⟩
  else (ln (one + z) - ln (one - z)) / two

end ComplexFormula.Complex

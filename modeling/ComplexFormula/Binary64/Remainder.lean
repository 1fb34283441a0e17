/-
Remainder and whole part of binary64 numbers. The remainder of a division truncated toward zero is always
representable, so it is computed exactly: both operands are brought to a common power of two and divided as whole
numbers; the sign is that of the dividend, also for a zero result.

- `remainder`: x - y · trunc(x / y).
- `wholePart`, `fractionPart`: truncation toward zero and what it cuts off.
- `toNat`, `toInt`: the whole part as an exact number.
- `powerOf`: whole powers by repeated squaring.
-/
import ComplexFormula.Binary64.Arithmetic

namespace ComplexFormula.Binary64

/-- the remainder of x divided by y, with the sign of x; there is none if x is infinite or y is zero -/
def remainder (x y : Binary64) : Binary64 :=
  match x.parts, y.parts with
  | .nan, _ => x
  | _, .nan => y
  | .infinite _, _ => invalid
  | .finite .., .infinite _ => x
  | .finite negative m q, .finite _ m' q' =>
    if m' = 0 then invalid else
      let low := min q q'
      nearest negative ((m <<< (q - low).toNat) % (m' <<< (q' - low).toNat)) low false

/-- truncation toward zero -/
def wholePart (x : Binary64) : Binary64 := if x < 0 then x.ceil else x.floor

/-- what truncation cuts off; there is nothing to cut off an infinity, and the result is NaN -/
def fractionPart (x : Binary64) : Binary64 := x - x.wholePart

/-- the whole part of the absolute value, zero for the infinities and NaN -/
def toNat (x : Binary64) : Nat :=
  match x.parts with
  | .finite _ m q => if 0 ≤ q then m <<< q.toNat else m >>> (-q).toNat
  | _ => 0

/-- the whole part -/
def toInt (x : Binary64) : Int := if x.isNegative then -x.toNat else x.toNat

/-- acc · base^n by repeated squaring, least binary digit of n first; `fuel` bounds the number of binary digits -/
def powerLoop : Nat → Binary64 → Nat → Binary64 → Binary64
  | 0, _, _, acc => acc
  | fuel + 1, base, n, acc =>
    let acc := if n % 2 = 1 then acc * base else acc
    if n < 2 then acc else powerLoop fuel (base * base) (n / 2) acc

/-- base^n, a negative power being the inverse of the positive one -/
def powerOf (base : Binary64) (n : Int) : Binary64 :=
  let power := powerLoop (n.natAbs.log2 + 1) base n.natAbs 1
  if n < 0 then 1 / power else power

end ComplexFormula.Binary64

/-
Rounding to binary64: `nearest` takes an exact magnitude m · 2^e, or one that lies strictly between m and m + 1 times
2^e, and gives the nearest number, a tie going to the even mantissa; too large a magnitude gives infinity.

- `nearestMagnitude`: the magnitude of the result, in whole-number arithmetic only.
- `nearest`: the number of a sign and an exact magnitude.
- `ofNat`: whole numbers, also as literals.
-/
import ComplexFormula.Binary64.Parts

namespace ComplexFormula.Binary64

/-- m / 2^s to the nearest whole number, a tie to even; `rest` says that the true value lies a little above m -/
def roundShift (m s : Nat) (rest : Bool) : Nat :=
  let whole := m >>> s
  let twice := 2 * (m - whole <<< s)
  let unit := 1 <<< s
  if unit < twice ∨ (twice = unit ∧ (rest ∨ whole % 2 = 1)) then whole + 1 else whole

/-- the magnitude of the number nearest to m · 2^e, or to a value a little above it if `rest` holds. A value with
`rest` is rounded correctly when m has at least 55 bits. -/
def nearestMagnitude (m : Nat) (e : Int) (rest : Bool) : Nat :=
  if m = 0 then 0 else
    let target := max ((m.log2 : Int) - 52 + e) leastExponent
    let mantissa := if target ≤ e then m <<< (e - target).toNat else roundShift m (target - e).toNat rest
    min ((target - leastExponent).toNat * implicitBit + mantissa) infiniteMagnitude

/-- the number nearest to ± m · 2^e, or to a value a little further from zero if `rest` holds -/
def nearest (negative : Bool) (m : Nat) (e : Int) (rest : Bool) : Binary64 :=
  ofSignAndMagnitude negative (nearestMagnitude m e rest)

/-- the number nearest to n -/
def ofNat (n : Nat) : Binary64 := nearest false n 0 false

instance (n : Nat) : OfNat Binary64 n := ⟨ofNat n⟩

end ComplexFormula.Binary64

/-
The shortest decimal of a binary64 magnitude: of all decimals c · 10^p that round to the float, those with the
largest p, and of these the nearest to the float, the larger one in a tie.

The reals that round to m · 2^q form an interval around it: half a unit to each side, a quarter below a power of two,
the ends included when m is even. All lengths are counted in quarters of a unit, times a common factor that makes
every number whole.

- `Interval`: the float, the ends of its interval and one grid step, as whole numbers over one denominator.
- `Interval.point?`: the grid point to print, if the grid meets the interval.
- `shortest`: the coarsest grid that meets the interval, and its point.
-/
import ComplexFormula.Binary64.Parts

namespace ComplexFormula.Decimal

open Binary64

/-- a float, its rounding interval and a decimal grid, all over the same denominator -/
structure Interval where
  low : Nat
  value : Nat
  high : Nat
  /-- the distance of two neighbouring grid points -/
  step : Nat
  /-- the ends round to the float as well -/
  closed : Bool
deriving DecidableEq, Repr

/-- the interval of m · 2^q over the grid of multiples of 10^p -/
def Interval.of (m : Nat) (q p : Int) : Interval :=
  let below := if m = implicitBit ∧ leastExponent < q then 1 else 2
  let factor := Nat.pow 10 (-p).toNat <<< (q - 2).toNat
  { low := (4 * m - below) * factor
    value := 4 * m * factor
    high := (4 * m + 2) * factor
    step := Nat.pow 10 p.toNat <<< (2 - q).toNat
    closed := m % 2 = 0 }

/-- the grid point c · step rounds to the float -/
def Interval.Covers (i : Interval) (c : Nat) : Prop :=
  (i.low < c * i.step ∧ c * i.step < i.high) ∨ (i.closed = true ∧ i.low ≤ c * i.step ∧ c * i.step ≤ i.high)

instance (i : Interval) (c : Nat) : Decidable (i.Covers c) := by
  unfold Interval.Covers; infer_instance

/-- the nearer of the two grid points next to the float among those that round to it, the upper one in a tie -/
def Interval.point? (i : Interval) : Option Nat :=
  let c := i.value / i.step
  if i.Covers c ∧ (i.Covers (c + 1) → 2 * (i.value % i.step) < i.step) then some c
  else if i.Covers (c + 1) then some (c + 1)
  else none

/-- an upper bound of the decimal exponent of m · 2^q -/
def exponentBound (m : Nat) (q : Int) : Int := (m.log2 + q) * 30103 / 100000 + 2

/-- the first grid that meets the interval, from 10^p downward -/
def search (m : Nat) (q : Int) : Nat → Int → Nat × Int
  | 0, p => (0, p)
  | fuel + 1, p =>
    match (Interval.of m q p).point? with
    | some c => (c, p)
    | none => search m q fuel (p - 1)

/-- the coefficient and the power of ten of the shortest decimal of m · 2^q -/
def shortest (m : Nat) (q : Int) : Nat × Int := search m q 21 (exponentBound m q)

end ComplexFormula.Decimal

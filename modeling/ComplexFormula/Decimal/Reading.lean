/-
Reading a number: an optional sign, then `inf`, `infinity` or `nan` in any case, or digits with at most one point and
at least one digit, then optionally an exponent with at least one digit. The value is the nearest binary64 number.

- `Numeral`: a decimal number as written.
- `Numeral.ofChars?`: the grammar of unsigned decimal numbers.
- `exponentOf`: the number that the digits of an exponent denote; a long exponent is not read to its end.
- `nearestDecimal`: the rounding to binary64.
- `read?`: the number of a text.
-/
import ComplexFormula.Binary64.Nearest

namespace ComplexFormula.Decimal

open Binary64

/-- a decimal number as written: the digits around the point, and the power of ten -/
structure Numeral where
  whole : List Char
  fraction : List Char
  power : Int
deriving DecidableEq, Repr

/-- an ASCII digit -/
def isDigit (c : Char) : Bool := '0' ≤ c && c ≤ '9'

/-- the value of a digit -/
def digitValue (c : Char) : Nat := c.toNat - '0'.toNat

/-- the number that a run of digits denotes -/
def valueOf (ds : List Char) : Nat := ds.foldl (fun n c => 10 * n + digitValue c) 0

/-- a sign that may be missing: whether it is a minus, and what follows -/
def splitSign : List Char → Bool × List Char
  | '-' :: cs => (true, cs)
  | '+' :: cs => (false, cs)
  | cs => (false, cs)

/-- the number that the digits of an exponent denote: once it has reached 65536, the digits left over are passed over,
so that an exponent stays small however long it is -/
def exponentOf (ds : List Char) : Nat := ds.foldl (fun n c => if n < 65536 then 10 * n + digitValue c else n) 0

/-- the power of ten that an exponent part denotes; nothing at all denotes 0 -/
def powerOf? : List Char → Option Int
  | [] => some 0
  | c :: cs =>
    let (negative, ds) := splitSign cs
    if (c = 'e' ∨ c = 'E') ∧ ds ≠ [] ∧ ds.all isDigit then
      some (if negative then -exponentOf ds else exponentOf ds)
    else none

/-- what stands after the digits in front of the point: the digits behind the point and the rest -/
def splitFraction : List Char → List Char × List Char
  | '.' :: cs => (cs.takeWhile isDigit, cs.dropWhile isDigit)
  | cs => ([], cs)

/-- an unsigned decimal number -/
def Numeral.ofChars? (cs : List Char) : Option Numeral :=
  let whole := cs.takeWhile isDigit
  let (fraction, tail) := splitFraction (cs.dropWhile isDigit)
  if whole = [] ∧ fraction = [] then none
  else (powerOf? tail).map fun power => ⟨whole, fraction, power⟩

/-- how many significant digits are read: every point halfway between two neighbouring numbers has fewer, so that of the
digits behind these it only matters whether all are zero -/
def digitLimit : Nat := 800

/-- the number nearest to ± digits · 10^power. Beyond 10^310 every number overflows and below 10^-330 every one
vanishes, so no larger power of ten is ever formed. -/
def nearestDecimal (negative : Bool) (digits : List Char) (power : Int) : Binary64 :=
  let significant := digits.dropWhile (· = '0')
  let size := significant.length + power
  if significant = [] ∨ size < -330 then nearest negative 0 0 false
  else if 310 < size then nearest negative 1 1024 false
  else
    let n := valueOf (significant.take digitLimit)
    let unread := significant.drop digitLimit
    let rest := unread.any (· ≠ '0')
    let power := power + unread.length
    if 0 ≤ power then nearest negative (n * Nat.pow 10 power.toNat) 0 rest
    else
      let scale := Nat.pow 10 (-power).toNat
      let shift := scale.log2 + 66 - n.log2
      let quotient := (n <<< shift) / scale
      nearest negative quotient (-shift) (rest || quotient * scale != n <<< shift)

/-- the number nearest to a decimal number -/
def Numeral.toBinary64 (n : Numeral) (negative : Bool) : Binary64 :=
  nearestDecimal negative (n.whole ++ n.fraction) (n.power - n.fraction.length)

/-- a text that denotes a value outside the decimal numbers -/
def special? (negative : Bool) (cs : List Char) : Option Binary64 :=
  let lower := cs.map Char.toLower
  if lower = "inf".toList ∨ lower = "infinity".toList then some (if negative then -infinity else infinity)
  else if lower = "nan".toList then some (if negative then -nan else nan)
  else none

/-- the number that a text denotes, if it denotes one -/
def read? (s : String) : Option Binary64 :=
  let (negative, cs) := splitSign s.toList
  match special? negative cs with
  | some x => some x
  | none => (Numeral.ofChars? cs).map (·.toBinary64 negative)

end ComplexFormula.Decimal

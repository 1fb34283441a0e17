/-
The text of a number: the shortest decimal that reads back, written positionally with no exponent and no closing
zeros after the point, whatever its size. Both zeros keep their sign; NaN has none.

- `digits`: the decimal digits of a whole number.
- `positional`: the text of c · 10^p.
- `text`: the text of a binary64 number.
-/
import ComplexFormula.Decimal.Shortest

namespace ComplexFormula.Decimal

open Binary64

/-- the digit character of a number below ten -/
def digitChar (n : Nat) : Char := Char.ofNat ('0'.toNat + n)

/-- the digits of n in front of `tail`, most significant first; `fuel` bounds their number -/
def digitsOnto : Nat → Nat → List Char → List Char
  | 0, _, tail => tail
  | fuel + 1, n, tail =>
    let tail := digitChar (n % 10) :: tail
    if n < 10 then tail else digitsOnto fuel (n / 10) tail

/-- the decimal digits of n, with no leading zero unless n is zero -/
def digits (n : Nat) : List Char := digitsOnto (n.log2 + 1) n []

/-- the digits with a point that leaves `places` of them behind it, zeros filled in on the left as needed -/
def withPoint (ds : List Char) (places : Nat) : List Char :=
  let filled := .replicate (places + 1 - ds.length) '0' ++ ds
  let whole := filled.length - places
  filled.take whole ++ '.' :: filled.drop whole

/-- c · 10^p written out -/
def positional (c : Nat) (p : Int) : List Char :=
  if 0 ≤ p then digits c ++ .replicate p.toNat '0' else withPoint (digits c) (-p).toNat

/-- the magnitude m · 2^q written out -/
def magnitude (m : Nat) (q : Int) : List Char :=
  if m = 0 then ['0'] else
    let (c, p) := shortest m q
    positional c p

/-- the sign in front of a magnitude -/
def signed (negative : Bool) (text : List Char) : List Char := if negative then '-' :: text else text

/-- the characters of a number's text -/
def chars (x : Binary64) : List Char :=
  match x.parts with
  | .nan => ['N', 'a', 'N']
  | .infinite negative => signed negative ['i', 'n', 'f']
  | .finite negative m q => signed negative (magnitude m q)

/-- the text of a number -/
def text (x : Binary64) : String := .ofList (chars x)

end ComplexFormula.Decimal

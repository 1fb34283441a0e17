/-
The two libraries that come ready made. Both hold the arithmetic behind the operators and the constants `i`, `pi` and
`e`. The extended one adds the functions, among them `abs`; the basic one has `abs` as an operation and no functions.

- `arithmeticEntries`, `functionEntries`, `constantEntries`: the entries.
- `Library.extended`, `Library.basic`: the libraries.
- `LibraryKind`: the choice between them by name.
-/
import ComplexFormula.Complex.Principal
import ComplexFormula.Library.Basic

namespace ComplexFormula

/-! ## Real operations -/

/-- the remainder with the sign of the dividend -/
def remainderOf (xs : List Binary64) : Except DomainFault Binary64 :=
  .ok ((xs.getD 0 0).remainder (xs.getD 1 0))

/-- the product 2 · 3 · … · n, rounded at every step -/
def productUpTo (n : Nat) : Binary64 := (List.range' 2 (n - 1)).foldl (fun acc k => acc * .ofNat k) 1

/-- the factorial of a whole number; it overflows beyond 170 -/
def factorialOf (xs : List Binary64) : Except DomainFault Binary64 :=
  let x := xs.headD 0
  if x < 0 ∨ x.fractionPart != 0 then .error (.undefined "fac" x)
  else if x > 170 then .ok Binary64.infinity
  else .ok (productUpTo x.toNat)

/-- the better of two numbers, the second one in a tie, so of two zeros the last; NaN if either is NaN -/
def better (wins : Binary64 → Binary64 → Bool) (x y : Binary64) : Binary64 :=
  if x.isNaN || y.isNaN then Binary64.nan else if wins x y then x else y

/-- the best number of a list, from a start that every number equals or beats -/
def extremum (wins : Binary64 → Binary64 → Bool) (start : Binary64) (xs : List Binary64) : Binary64 :=
  xs.foldl (better wins) start

/-- the greatest operand -/
def maximumOf (xs : List Binary64) : Except DomainFault Binary64 :=
  .ok (extremum (fun x y => y < x) (-Binary64.infinity) xs)

/-- the least operand -/
def minimumOf (xs : List Binary64) : Except DomainFault Binary64 :=
  .ok (extremum (fun x y => x < y) Binary64.infinity xs)

/-! ## Complex operations -/

/-- the root of the sum of the squares -/
def rootSumSquares (zs : List Complex) : Complex := (zs.foldl (fun acc z => acc + z * z) Complex.zero).sqrt

/-- the logarithm to the base given second, or to base ten -/
def logarithm (zs : List Complex) : Complex := (zs.headD .zero).ln / (zs.getD 1 (.ofReal 10)).ln

/-- the number in [0, 1) made of the leading 53 bits of `entropy` -/
def unitSample (entropy : UInt64) : Binary64 := Binary64.nearest false (entropy.toNat >>> 11) (-53) false

/-! ## Entries -/

/-- the operations behind the operators -/
def arithmeticEntries : List Operation :=
  [.binary "add" (· + ·), .binary "sub" (· - ·), .binary "mul" (· * ·), .binary "div" (· / ·),
    .binary "pow" Complex.principalPower, .unary "neg" (- ·),
    ⟨"mod", .exact 2, onReal "mod" remainderOf⟩, ⟨"fac", .exact 1, onReal "fac" factorialOf⟩]

/-- the modulus as a complex number -/
def absolute : Operation := .unary "abs" fun z => .ofReal z.norm

/-- the functions of the extended library; `entropy` decides what `random` yields -/
def functionEntries (entropy : UInt64) : List Operation :=
  [.unary "re" fun z => .ofReal z.re, .unary "im" fun z => .ofReal z.im, absolute,
    .unary "acos" Complex.acos, .unary "acosh" Complex.acosh, .unary "asin" Complex.asin,
    .unary "asinh" Complex.asinh, .unary "atan" Complex.atan, .unary "atanh" Complex.atanh,
    .unary "cbrt" fun z => z.principalPower (.ofReal (1 / 3)),
    .unary "ceil" (·.ceilTo 0), .unary "cos" Complex.cos, .unary "cosh" Complex.cosh, .unary "exp" Complex.exp,
    .unary "floor" (·.floorTo 0), ⟨"hypot", .atLeast 0, onComplex rootSumSquares⟩,
    ⟨"log_", .range 1 2, onComplex logarithm⟩, .unary "ln" Complex.ln,
    ⟨"max", .atLeast 1, onReal "max" maximumOf⟩, ⟨"min", .atLeast 1, onReal "min" minimumOf⟩,
    .binary "pow" Complex.principalPower, ⟨"random", .exact 0, onComplex fun _ => .ofReal (unitSample entropy)⟩,
    .unary "round" (·.roundTo 0), .unary "sign" Complex.direction, .unary "sin" Complex.sin,
    .unary "sinh" Complex.sinh, .unary "sqrt" Complex.sqrt, .unary "tan" Complex.tan, .unary "tanh" Complex.tanh]

def constantEntries : List (String × Complex) :=
  [("i", .unit), ("pi", .ofReal 3.141592653589793), ("e", .ofReal 2.718281828459045)]

/-! ## Libraries -/

namespace Library

/-- the arithmetic and the constants -/
def core : Library :=
  constantEntries.foldl (fun lib c => lib.registerConstant c.1 c.2) (arithmeticEntries.foldl registerOperation empty)

/-- the library with all functions; `entropy` decides what `random` yields -/
def extended (entropy : UInt64) : Library := (functionEntries entropy).foldl registerFunction core

/-- the library without functions -/
def basic : Library := core.registerOperation absolute

end Library

/-- the choice of a library -/
inductive LibraryKind where
  | extended
  | basic
deriving DecidableEq, Repr, Inhabited

/-- a name that denotes no library -/
structure UnknownLibraryKind where
  name : String
deriving DecidableEq, Repr

def UnknownLibraryKind.message (e : UnknownLibraryKind) : String := "unknown library kind \"" ++ e.name ++ "\""

namespace LibraryKind

/-- the library of that kind; `entropy` decides what `random` yields -/
def library (entropy : UInt64) : LibraryKind → Library
  | .extended => .extended entropy
  | .basic => .basic

/-- the kind of that name -/
def ofText : String → Except UnknownLibraryKind LibraryKind
  | "extended" => .ok .extended
  | "basic" => .ok .basic
  | name => .error ⟨name⟩

end LibraryKind

end ComplexFormula

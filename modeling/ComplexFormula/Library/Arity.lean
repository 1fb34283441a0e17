/-
Arities: how many operands an operation accepts.

- `Arity.accepts`: the test.
- `Arity.text`, `Arity.debugText`: as read in messages and as a constructor term.
-/

namespace ComplexFormula

/-- the numbers of operands that an operation accepts -/
inductive Arity where
  | exact (count : Nat)
  /-- both ends included -/
  | range (least most : Nat)
  | atLeast (least : Nat)
deriving DecidableEq, Repr

namespace Arity

/-- n operands are acceptable -/
def accepts (n : Nat) : Arity → Bool
  | .exact count => n == count
  | .range least most => least ≤ n && n ≤ most
  | .atLeast least => least ≤ n

/-- the arity in words -/
def text : Arity → String
  | .exact count => toString count
  | .range least most => toString least ++ " to " ++ toString most
  | .atLeast least => "at least " ++ toString least

/-- the arity as a constructor term -/
def debugText : Arity → String
  | .exact count => "Exact(" ++ toString count ++ ")"
  | .range least most => "Range(" ++ toString least ++ ", " ++ toString most ++ ")"
  | .atLeast least => "AtLeast(" ++ toString least ++ ")"

end Arity

end ComplexFormula

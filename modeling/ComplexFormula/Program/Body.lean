/-
Bodies of functions: branches that are tried in order, each behind a guard of checks, and a program for the arguments
that no branch takes. A guard is checked from left to right and stops at the first check that fails.

- `Relation.compare`: the truth of a comparison of values.
- `Check`, `Branch`, `Body`: the parts.
- `Body.eval`: the value at given arguments.
-/
import ComplexFormula.Declaration.Basic
import ComplexFormula.Program.Basic

namespace ComplexFormula

/-! ## Comparisons -/

/-- two real values in an order; other values have none -/
def compareReal (holds : Binary64 → Binary64 → Bool) (v w : Value) : Except DomainFault Bool :=
  if v.isReal && w.isReal then .ok (holds v.toComplex.re w.toComplex.re)
  else .error (.complexUnsupported "comparison")

/-- the relation holds between two values; equality compares both parts, an order only real values -/
def Relation.compare (v w : Value) : Relation → Except DomainFault Bool
  | .eq => .ok (v.toComplex == w.toComplex)
  | .ne => .ok (v.toComplex != w.toComplex)
  | .lt => compareReal (fun x y => x < y) v w
  | .le => compareReal (fun x y => x ≤ y) v w
  | .gt => compareReal (fun x y => y < x) v w
  | .ge => compareReal (fun x y => y ≤ x) v w

/-- the programs of both sides of a comparison -/
structure Check where
  relation : Relation
  left : Program
  right : Program
deriving BEq

/-- the truth of the comparison, the left side being run first -/
def Check.holds (c : Check) (args : List Value) : Except Fault Bool := do
  let v ← c.left.run args
  let w ← c.right.run args
  (c.relation.compare v w).mapError .domain

/-- all checks hold; those behind a failing one are not run -/
def Check.allHold (args : List Value) : List Check → Except Fault Bool
  | [] => .ok true
  | c :: cs => do if ← c.holds args then allHold args cs else return false

/-! ## Bodies -/

/-- a value behind a guard -/
structure Branch where
  guard : List Check
  value : Program
deriving BEq

/-- branches in order and what remains for the other arguments -/
structure Body where
  branches : List Branch
  fallback : Program
deriving BEq

namespace Body

/-- the body without any program -/
def empty : Body := ⟨[], .empty⟩

/-- the value of the first branch whose guard holds, or else of the fallback -/
def evalFrom (fallback : Program) (args : List Value) : List Branch → Except Fault Value
  | [] => fallback.run args
  | b :: bs => do if ← Check.allHold args b.guard then b.value.run args else evalFrom fallback args bs

/-- the value at the arguments -/
def eval (b : Body) (args : List Value) : Except Fault Value := evalFrom b.fallback args b.branches

end Body

end ComplexFormula

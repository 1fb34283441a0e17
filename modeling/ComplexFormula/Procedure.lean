/-
Procedures: definitions whose names have all been found in a library. Only a wrong number of arguments or an operation
that refuses its operands can make a call fail.

- `Procedure.ofDeclaration`: clauses in order, then the body; the first fault ends it.
- `Procedure.call`: the value at given arguments.
-/
import ComplexFormula.Program.Body
import ComplexFormula.Program.OfExpr

namespace ComplexFormula

/-! ## From definitions -/

/-- the check of a comparison -/
def Check.ofComparison (lib : Library) (c : Comparison) : Except Fault Check := do
  let left ← Program.ofExpr lib c.left
  let right ← Program.ofExpr lib c.right
  return ⟨c.relation, left, right⟩

/-- the branch of a clause, guard first -/
def Branch.ofClause (lib : Library) (c : Clause) : Except Fault Branch := do
  let guard ← c.guard.mapM (Check.ofComparison lib)
  let value ← Program.ofExpr lib c.value
  return ⟨guard, value⟩

/-- the body of a definition -/
def Body.ofDeclaration (lib : Library) (d : Declaration) : Except Fault Body := do
  let branches ← d.clauses.mapM (Branch.ofClause lib)
  let fallback ← Program.ofExpr lib d.body
  return ⟨branches, fallback⟩

/-- a definition together with its programs -/
structure Procedure where
  declaration : Declaration
  body : Body

namespace Procedure

/-- the definition with every name looked up in the library -/
def ofDeclaration (lib : Library) (d : Declaration) : Except Fault Procedure := do
  return ⟨d, ← Body.ofDeclaration lib d⟩

/-! ## Calls -/

/-- the number of arguments -/
def arity (p : Procedure) : Nat := p.declaration.params.length

/-- the value at the arguments, whose number has to be right -/
def call (p : Procedure) (args : List Value) : Except Fault Value :=
  if args.length = p.arity then p.body.eval args else .error (.argumentCount p.arity args.length)

end Procedure

end ComplexFormula

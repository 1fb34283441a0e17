/-
Programs of expressions: operands first, from left to right, then the operation. All names are looked up and all
operand counts are tested here, so that a program has nothing left to look up.

- `Expr.code`: the instructions of an expression.
- `Program.ofExpr`: the program of an expression.
-/
import ComplexFormula.Expr.Basic
import ComplexFormula.Library.Basic
import ComplexFormula.Program.Basic

namespace ComplexFormula

/-- the application of the operation found under a name to `argc` operands -/
def application (op? : Option Operation) (name : String) (argc : Nat) : Except Fault Instr :=
  match op? with
  | none => .error (.unknownOperation name)
  | some op => if op.arity.accepts argc then .ok (.apply op argc) else .error (.arity name op.arity argc)

namespace Expr

mutual

/-- the instructions that push the value of the expression -/
def code (lib : Library) : Expr → Except Fault (List Instr)
  | .number x => .ok [.push (.real x)]
  | .param _ index => .ok [.load index]
  | .constant name =>
    match lib.constant? name with
    | some z => .ok [.push (.complex z)]
    | none => .error (.unknownIdentifier name)
  | .unary op a => do
    let operand ← a.code lib
    let i ← application (lib.resolve? op) op 1
    return operand ++ [i]
  | .binary op a b => do
    let left ← a.code lib
    let right ← b.code lib
    let i ← application (lib.resolve? op) op 2
    return left ++ right ++ [i]
  | .call name args => do
    let operands ← codeAll lib args
    let i ← application (lib.function? name) name args.length
    return operands ++ [i]

/-- the instructions that push the values of several expressions in order -/
def codeAll (lib : Library) : List Expr → Except Fault (List Instr)
  | [] => .ok []
  | a :: as => do
    let first ← a.code lib
    let others ← codeAll lib as
    return first ++ others

end

end Expr

/-- the program of an expression -/
def Program.ofExpr (lib : Library) (e : Expr) : Except Fault Program := do
  return ⟨← e.code lib⟩

end ComplexFormula

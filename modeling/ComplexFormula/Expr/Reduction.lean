/-
Reducing operators to nodes. Operands wait on one stack with the depth of their trees, operators and open brackets on
another; an operator is reduced by taking its operands off and pushing the node that they form. No node is deeper than
the limit.

- `BinaryOp`, `Waiting`: operators with their precedence, and what waits for operands.
- `Operand`, `pushNode`: finished expressions with their depth.
- `reduce`, `reduceWhile`: one waiting operator, and as many as yield.
-/
import ComplexFormula.Expr.Basic
import ComplexFormula.Fault
import ComplexFormula.Stack

namespace ComplexFormula

/-! ## Operators -/

/-- an operator between two operands -/
inductive BinaryOp where
  | add
  | sub
  | mul
  | div
  | mod
  | pow
deriving DecidableEq, Repr

namespace BinaryOp

/-- the operation behind the operator -/
def name : BinaryOp → String
  | .add => "add"
  | .sub => "sub"
  | .mul => "mul"
  | .div => "div"
  | .mod => "mod"
  | .pow => "pow"

/-- the operator of a token text -/
def ofText? : String → Option BinaryOp
  | "+" => some .add
  | "-" => some .sub
  | "*" => some .mul
  | "/" => some .div
  | "^" => some .pow
  | "%" | "mod" => some .mod
  | _ => none

/-- how tightly the operator binds -/
def precedence : BinaryOp → Nat
  | .add | .sub => 1
  | .mul | .div | .mod => 2
  | .pow => 4

end BinaryOp

/-- an operator or an open bracket that waits for operands; brackets know where they were opened -/
inductive Waiting where
  | neg
  | binary (op : BinaryOp)
  | group (pos : Nat)
  | bar (pos : Nat)
  /-- a call with so many commas behind its bracket -/
  | call (name : String) (pos : Nat) (commas : Nat)
deriving DecidableEq, Repr

namespace Waiting

/-- an open bracket -/
def isBracket : Waiting → Bool
  | .neg | .binary _ => false
  | _ => true

def isBar : Waiting → Bool
  | .bar _ => true
  | _ => false

/-- the waiting operator is completed before `op` is pushed: it binds more tightly, or as tightly and groups to the
left -/
def yieldsTo (op : BinaryOp) : Waiting → Bool
  | .neg => op.precedence ≤ 3
  | .binary top => op.precedence < top.precedence || (op.precedence == top.precedence && op != .pow)
  | _ => false

end Waiting

/-! ## Nodes -/

/-- a finished expression with the depth of its tree -/
structure Operand where
  expr : Expr
  depth : Nat
deriving Repr

/-- an expression of the given depth on top of the operands, unless it is too deep -/
def pushNode (e : Expr) (depth pos : Nat) (operands : List Operand) : Except Fault (List Operand) :=
  if depthLimit < depth then .error (.grammar .tooDeep pos) else .ok (⟨e, depth⟩ :: operands)

/-- an operation applied to the topmost operand -/
def pushUnary (op : String) (pos : Nat) : List Operand → Except Fault (List Operand)
  | a :: rest => pushNode (.unary op a.expr) (a.depth + 1) pos rest
  | [] => .error (.grammar (.missingOperand op) pos)

/-- an operation applied to the two topmost operands -/
def pushBinary (op : String) (pos : Nat) : List Operand → Except Fault (List Operand)
  | b :: a :: rest => pushNode (.binary op a.expr b.expr) (max a.depth b.depth + 1) pos rest
  | _ => .error (.grammar (.missingOperand op) pos)

/-- a call of the topmost operands -/
def pushCall (name : String) (argc pos : Nat) (operands : List Operand) : Except Fault (List Operand) :=
  match Stack.popMany? argc operands with
  | some (args, rest) =>
    pushNode (.call name (args.map Operand.expr)) ((args.map Operand.depth).foldl max 0 + 1) pos rest
  | none => .error (.grammar (.missingArguments name) pos)

/-- completing a waiting operator; an open bracket cannot be completed -/
def reduce (pos : Nat) (operands : List Operand) : Waiting → Except Fault (List Operand)
  | .neg => pushUnary "neg" pos operands
  | .binary op => pushBinary op.name pos operands
  | .group opened | .bar opened | .call _ opened _ => .error (.grammar .unclosedBracket opened)

/-- completing the waiting operators from the top as long as `yields` holds -/
def reduceWhile (yields : Waiting → Bool) (pos : Nat) :
    List Waiting → List Operand → Except Fault (List Waiting × List Operand)
  | [], operands => .ok ([], operands)
  | w :: ws, operands =>
    if yields w then
      match reduce pos operands w with
      | .error fault => .error fault
      | .ok operands => reduceWhile yields pos ws operands
    else .ok (w :: ws, operands)

/-- completing the waiting operators down to the innermost open bracket -/
def reduceToBracket (pos : Nat) : List Waiting → List Operand → Except Fault (List Waiting × List Operand) :=
  reduceWhile (fun w => !w.isBracket) pos

end ComplexFormula

/-
Assembling an expression from tokens by operator precedence. An operator that arrives first reduces the waiting ones
that bind at least as tightly. Weakest first: sums, then products (also the product of two values written side by
side), then the negative sign, then powers, which group to the right; the factorial sign applies at once to the value
in front of it.

- `Assembly`: the two stacks and what came last.
- `Assembly.step`: one token.
- `Expr.ofTokens`: the expression of a list of tokens.
-/
import ComplexFormula.Decimal.Reading
import ComplexFormula.Expr.Reduction
import ComplexFormula.Token.Basic

namespace ComplexFormula

/-! ## The assembly -/

/-- what the last token was -/
inductive Last where
  /-- nothing yet, an operator, a comma or an open bracket -/
  | operator
  /-- the bracket of a call -/
  | callOpen
  /-- a value that may be followed by a factor -/
  | value
  /-- an identifier; only a bracket may follow it as a factor -/
  | identifier
deriving DecidableEq, Repr

/-- a value stands last -/
def Last.isValue : Last → Bool
  | .value | .identifier => true
  | _ => false

/-- an expression under assembly: both stacks have their top in front -/
structure Assembly where
  operands : List Operand
  waiting : List Waiting
  last : Last
deriving Repr

namespace Assembly

/-- nothing read yet -/
def start : Assembly := ⟨[], [], .operator⟩

/-- a leaf on top of the operands -/
def leaf (s : Assembly) (e : Expr) (last : Last) : Assembly := { s with operands := ⟨e, 1⟩ :: s.operands, last }

/-- an open bracket on top of the waiting ones -/
def opened (s : Assembly) (w : Waiting) (last : Last) : Assembly := { s with waiting := w :: s.waiting, last }

/-- an operator between two operands -/
def binary (s : Assembly) (op : BinaryOp) (pos : Nat) : Except Fault Assembly := do
  let (waiting, operands) ← reduceWhile (Waiting.yieldsTo op) pos s.waiting s.operands
  return ⟨operands, .binary op :: waiting, .operator⟩

/-- a value begins: behind another value it is a factor -/
def beginValue (s : Assembly) (t : Token) : Except Fault Assembly :=
  match s.last with
  | .value => s.binary .mul t.start
  | .identifier =>
    if t.kind = .leftParen then s.binary .mul t.start
    else .error (.grammar (.missingOperator t.text) t.start)
  | .operator | .callOpen => .ok s

/-- the factorial sign -/
def factorial (s : Assembly) (pos : Nat) : Except Fault Assembly :=
  if s.last.isValue then do
    let operands ← pushUnary "fac" pos s.operands
    return { s with operands, last := .value }
  else .error (.grammar .factorialWithoutOperand pos)

/-- an operator where a value is due: only signs may stand there -/
def sign (s : Assembly) (t : Token) : Except Fault Assembly :=
  match t.text with
  | "-" => .ok (s.opened .neg .operator)
  | "+" => .ok { s with last := .operator }
  | other => .error (.grammar (.missingLeftOperand other) t.start)

/-- any operator -/
def operator (s : Assembly) (t : Token) : Except Fault Assembly :=
  if t.text = "!" then s.factorial t.start
  else if s.last.isValue then
    match BinaryOp.ofText? t.text with
    | some op => s.binary op t.start
    | none => .error (.grammar (.unknownOperator t.text) t.start)
  else s.sign t

/-- the closing bracket of a call without arguments -/
def closeEmptyCall (s : Assembly) : Assembly :=
  match s.waiting with
  | .call name _ _ :: waiting => ⟨⟨.call name [], 1⟩ :: s.operands, waiting, .value⟩
  | waiting => { s with waiting := waiting.tail, last := .value }

/-- a closing bracket -/
def closeParen (s : Assembly) (pos : Nat) : Except Fault Assembly :=
  if s.last = .callOpen then .ok s.closeEmptyCall
  else if s.last.isValue then do
    let (waiting, operands) ← reduceToBracket pos s.waiting s.operands
    match waiting with
    | .group _ :: waiting => return ⟨operands, waiting, .value⟩
    | .call name _ commas :: waiting =>
      let operands ← pushCall name (commas + 1) pos operands
      return ⟨operands, waiting, .value⟩
    | _ => .error (.grammar .unmatchedBracket pos)
  else .error (.grammar (.missingValue ")") pos)

/-- the innermost open bracket is a bar -/
def insideBars (s : Assembly) : Bool := (s.waiting.find? Waiting.isBracket).any Waiting.isBar

/-- a closing bar -/
def closeBar (s : Assembly) (pos : Nat) : Except Fault Assembly := do
  let (waiting, operands) ← reduceToBracket pos s.waiting s.operands
  let operands ← pushUnary "abs" pos operands
  return ⟨operands, waiting.tail, .value⟩

/-- a bar, which closes where a value stands last inside of bars and opens everywhere else -/
def bar (s : Assembly) (t : Token) : Except Fault Assembly :=
  if s.last.isValue && s.insideBars then s.closeBar t.start
  else do
    let s ← s.beginValue t
    return s.opened (.bar t.start) .operator

/-- a comma between arguments -/
def comma (s : Assembly) (pos : Nat) : Except Fault Assembly :=
  if s.last.isValue then do
    let (waiting, operands) ← reduceToBracket pos s.waiting s.operands
    match waiting with
    | .call name opened commas :: waiting => return ⟨operands, .call name opened (commas + 1) :: waiting, .operator⟩
    | _ => .error (.grammar .strayComma pos)
  else .error (.grammar (.missingValue ",") pos)

/-- the expression of an identifier: the parameter of that name, or else a constant -/
def named (params : List Param) (name : String) : Expr :=
  match params.find? (·.name == name) with
  | some p => .param p.name p.index
  | none => .constant name

/-- a literal -/
def number (s : Assembly) (t : Token) : Except Fault Assembly := do
  let s ← s.beginValue t
  match Decimal.read? t.text with
  | some x => return s.leaf (.number x) .value
  | none => .error (.invalidNumber t.text t.start)

/-- one token other than the name of a function -/
def step (params : List Param) (s : Assembly) (t : Token) : Except Fault Assembly :=
  match t.kind with
  | .number => s.number t
  | .identifier => do return (← s.beginValue t).leaf (named params t.text) .identifier
  | .constant => do return (← s.beginValue t).leaf (.constant t.text) .value
  | .leftParen => do return (← s.beginValue t).opened (.group t.start) .operator
  | .rightParen => s.closeParen t.start
  | .comma => s.comma t.start
  | .bar => s.bar t
  | .operator => s.operator t
  | .keyword => if t.text = "mod" then s.operator t else .error (.grammar (.unexpected t.text) t.start)
  | _ => .error (.grammar (.unexpected t.text) t.start)

/-- the end of the tokens: everything that waits is completed and one operand remains -/
def finish (s : Assembly) (stop : Nat) : Except Fault Expr :=
  if s.last.isValue then do
    let (_, operands) ← reduceWhile (fun _ => true) stop s.waiting s.operands
    match operands with
    | [a] => return a.expr
    | [] => .error (.grammar .expectedExpression stop)
    | _ => .error (.grammar .expectedOperator stop)
  else .error (.grammar .unexpectedEnd stop)

/-- the expression of the tokens that are left; the name of a function is read together with the bracket behind it -/
def run (params : List Param) (stop : Nat) (s : Assembly) : List Token → Except Fault Expr
  | [] => s.finish stop
  | t :: ts =>
    if t.kind = .function then
      match s.beginValue t, ts with
      | .error fault, _ => .error fault
      | .ok _, [] => .error (.grammar (.callWithoutBracket t.text) stop)
      | .ok s, next :: rest =>
        if next.kind = .leftParen then run params stop (s.opened (.call t.text t.start 0) .callOpen) rest
        else .error (.grammar (.callWithoutBracket t.text) next.start)
    else
      match s.step params t with
      | .error fault => .error fault
      | .ok s => run params stop s ts

end Assembly

/-- the expression that the tokens form; faults at their end are reported at byte `stop` -/
def Expr.ofTokens (params : List Param) (stop : Nat) (tokens : List Token) : Except Fault Expr :=
  Assembly.start.run params stop tokens

end ComplexFormula

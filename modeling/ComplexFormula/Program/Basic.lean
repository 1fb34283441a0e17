/-
Programs for a stack of values: literals and arguments are pushed, an operation takes its operands off and pushes its
value. A program that was made from an expression leaves exactly one value.

- `Instr`, `Program`: the code, with its text.
- `Program.run`: the value that a program leaves.
-/
import ComplexFormula.Library.Operation
import ComplexFormula.Stack

namespace ComplexFormula

/-- one instruction -/
inductive Instr where
  | push (v : Value)
  /-- pushes an argument -/
  | load (index : Nat)
  /-- takes `argc` operands off and pushes the value of the operation -/
  | apply (op : Operation) (argc : Nat)
deriving BEq

namespace Instr

def text : Instr → String
  | .push v => "push " ++ v.text
  | .load index => "load " ++ toString index
  | .apply op argc => "apply " ++ op.name ++ "/" ++ toString argc

/-- the stack after one instruction -/
def exec (args : List Value) (stack : List Value) : Instr → Except Fault (List Value)
  | .push v => .ok (v :: stack)
  | .load index =>
    match args[index]? with
    | some v => .ok (v :: stack)
    | none => .error (.argumentCount (index + 1) args.length)
  | .apply op argc =>
    match Stack.popMany? argc stack with
    | some (operands, rest) => (op.call operands).map (.complex · :: rest)
    | none => .error (.arity op.name op.arity stack.length)

/-- the stack after several instructions; the first fault ends them -/
def execAll (args : List Value) : List Instr → List Value → Except Fault (List Value)
  | [], stack => .ok stack
  | i :: is, stack =>
    match i.exec args stack with
    | .error fault => .error fault
    | .ok stack => execAll args is stack

end Instr

/-- instructions in the order of execution -/
structure Program where
  instrs : List Instr
deriving BEq

namespace Program

/-- the program without instructions -/
def empty : Program := ⟨[]⟩

def text (p : Program) : String := ", ".intercalate (p.instrs.map Instr.text)

/-- the value on top of the stack at the end -/
def run (p : Program) (args : List Value) : Except Fault Value :=
  match Instr.execAll args p.instrs [] with
  | .error fault => .error fault
  | .ok (v :: _) => .ok v
  | .ok [] => .error (.grammar .emptyProgram 0)

end Program

end ComplexFormula

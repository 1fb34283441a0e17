/-
Expressions: trees of literals, parameters, named constants, operators and calls. Operator nodes carry the name of the
operation that they stand for, so that an expression says nothing about what operations do.

- `Param`: what an expression refers to by name and place.
- `Expr`: the tree; `==` compares literals as floats do.
- `Expr.text`: the expression in brackets throughout.
-/
import ComplexFormula.Decimal.Notation

namespace ComplexFormula

/-- a parameter by its name and its place in the argument list -/
structure Param where
  name : String
  index : Nat
deriving DecidableEq, Repr

/-- an expression tree -/
inductive Expr where
  | number (x : Binary64)
  /-- a parameter by its name and its place in the argument list -/
  | param (name : String) (index : Nat)
  /-- a name to be looked up among the constants -/
  | constant (name : String)
  /-- an operation on one operand, such as `neg`, `fac`, `abs` -/
  | unary (op : String) (operand : Expr)
  /-- an operation on two operands, such as `add`, `sub`, `mul`, `div`, `pow`, `mod` -/
  | binary (op : String) (left right : Expr)
  | call (name : String) (args : List Expr)
deriving Repr, Inhabited

namespace Expr

/-! ## Comparison -/

mutual

/-- equal trees, literals compared as floats -/
def beq : Expr → Expr → Bool
  | .number x, .number y => x == y
  | .param n i, .param m j => n == m && i == j
  | .constant n, .constant m => n == m
  | .unary p a, .unary q b => p == q && a.beq b
  | .binary p a b, .binary q c d => p == q && a.beq c && b.beq d
  | .call n as, .call m bs => n == m && beqAll as bs
  | _, _ => false

/-- equal trees in equal number -/
def beqAll : List Expr → List Expr → Bool
  | [], [] => true
  | a :: as, b :: bs => a.beq b && beqAll as bs
  | _, _ => false

end

instance : BEq Expr := ⟨beq⟩

/-! ## Text -/

/-- the symbol written for an operation on two operands, the name itself if it has none -/
def binarySymbol : String → String
  | "add" => "+"
  | "sub" => "-"
  | "mul" => "*"
  | "div" => "/"
  | "pow" => "^"
  | name => name

/-- an operation applied to the text of its operand -/
def unaryText (op operand : String) : String :=
  match op with
  | "neg" => "(-" ++ operand ++ ")"
  | "fac" => "(" ++ operand ++ "!)"
  | "abs" => "|" ++ operand ++ "|"
  | _ => op ++ "(" ++ operand ++ ")"

mutual

/-- the expression with brackets around every operator -/
def text : Expr → String
  | .number x => Decimal.text x
  | .param name _ => name
  | .constant name => name
  | .unary op a => unaryText op a.text
  | .binary op a b => "(" ++ a.text ++ " " ++ binarySymbol op ++ " " ++ b.text ++ ")"
  | .call name args => name ++ "(" ++ ", ".intercalate (texts args) ++ ")"

/-- the texts of the operands of a call -/
def texts : List Expr → List String
  | [] => []
  | a :: as => a.text :: texts as

end

theorem texts_eq_map (as : List Expr) : texts as = as.map text := by
  induction as with
  | nil => rfl
  | cons a as ih => rw [texts, ih, List.map_cons]

end Expr

end ComplexFormula

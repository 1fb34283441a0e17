/-
Definitions of functions: a name, parameters, guarded clauses and an unguarded body. A guard is a list of comparisons
that all have to hold.

- `Relation`: the six comparisons.
- `Comparison`, `Clause`, `Declaration`: the parts, each with its text.
-/
import ComplexFormula.Expr.Basic

namespace ComplexFormula

/-! ## Comparisons -/

/-- the relation between the two sides of a comparison -/
inductive Relation where
  | eq
  | ne
  | lt
  | le
  | gt
  | ge
deriving DecidableEq, Repr

namespace Relation

/-- the relation of a symbol; a single `=` means equality too -/
def ofSymbol? : String → Option Relation
  | "==" | "=" => some .eq
  | "!=" => some .ne
  | "<" => some .lt
  | "<=" => some .le
  | ">" => some .gt
  | ">=" => some .ge
  | _ => none

def symbol : Relation → String
  | .eq => "=="
  | .ne => "!="
  | .lt => "<"
  | .le => "<="
  | .gt => ">"
  | .ge => ">="

/-- the relation needs an order, which complex numbers do not have -/
def isOrdering : Relation → Bool
  | .eq | .ne => false
  | _ => true

theorem ofSymbol?_symbol (r : Relation) : ofSymbol? r.symbol = some r := by cases r <;> rfl

end Relation

/-- two expressions and the relation between them -/
structure Comparison where
  relation : Relation
  left : Expr
  right : Expr
deriving BEq, Repr

def Comparison.text (c : Comparison) : String := c.left.text ++ " " ++ c.relation.symbol ++ " " ++ c.right.text

/-! ## Clauses and declarations -/

/-- a value that counts where every comparison of the guard holds -/
structure Clause where
  guard : List Comparison
  value : Expr
deriving BEq, Repr

def Clause.text (c : Clause) : String := c.value.text ++ " if " ++ " and ".intercalate (c.guard.map Comparison.text)

/-- a definition of a function -/
structure Declaration where
  name : String
  params : List Param
  body : Expr
  clauses : List Clause
deriving BEq, Repr

namespace Declaration

/-- the names of the parameters -/
def paramNames (d : Declaration) : List String := d.params.map Param.name

/-- head, clauses in order, body -/
def text (d : Declaration) : String :=
  d.name ++ "(" ++ ", ".intercalate d.paramNames ++ ") = " ++ String.join (d.clauses.map (·.text ++ "; ")) ++
    d.body.text

/-- the declaration without its clauses -/
def withoutClauses (d : Declaration) : Declaration := { d with clauses := [] }

end Declaration

end ComplexFormula

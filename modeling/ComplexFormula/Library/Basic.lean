/-
Libraries: the operations behind operators, the functions that a formula may call, and named constants. Operators
look among the operations first and among the functions second; calls look among the functions alone.

- `registerOperation`, `registerFunction`, `registerConstant`: the last entry of a name stays.
- `resolve`: the lookup of an operator.
- `operationNames`, `functionNames`, `constantNames`: the listings.
- `words`: the names that a scanner has to know.
-/
import ComplexFormula.Library.Operation
import ComplexFormula.Library.Table
import ComplexFormula.Sorting
import ComplexFormula.Text.Quoted

namespace ComplexFormula

/-- the named entries that a formula can use -/
structure Library where
  operations : Table Operation
  functions : Table Operation
  constants : Table Complex

namespace Library

/-- the library without entries -/
def empty : Library := ⟨∅, ∅, ∅⟩

/-! ## Registration -/

/-- an operation under its own name -/
def registerOperation (lib : Library) (p : Operation) : Library :=
  { lib with operations := lib.operations.insert p.name p }

/-- a function under its own name -/
def registerFunction (lib : Library) (p : Operation) : Library :=
  { lib with functions := lib.functions.insert p.name p }

def registerConstant (lib : Library) (name : String) (z : Complex) : Library :=
  { lib with constants := lib.constants.insert name z }

/-! ## Lookup -/

def operation? (lib : Library) (name : String) : Option Operation := lib.operations.get? name

def function? (lib : Library) (name : String) : Option Operation := lib.functions.get? name

def constant? (lib : Library) (name : String) : Option Complex := lib.constants.get? name

/-- the operation of that name, or else the function -/
def resolve? (lib : Library) (name : String) : Option Operation := (lib.operation? name).or (lib.function? name)

def isFunction (lib : Library) (name : String) : Bool := lib.functions.contains name

def isConstant (lib : Library) (name : String) : Bool := lib.constants.contains name

/-! ## Names -/

/-- keys in ascending order -/
def sortedNames (keys : List String) : List String := Sorting.sort (fun a b => decide (a ≤ b)) keys

def operationNames (lib : Library) : List String := sortedNames lib.operations.names

def functionNames (lib : Library) : List String := sortedNames lib.functions.names

def constantNames (lib : Library) : List String := sortedNames lib.constants.names

/-- a name of more than one byte; shorter ones are read as plain letters -/
def isWord (name : String) : Bool := 1 < name.utf8ByteSize

/-- the function names and then the constant names that are read as words -/
def words (lib : Library) : List String := (lib.functions.names ++ lib.constants.names).filter isWord

/-! ## Text -/

/-- the three listings -/
def debugText (lib : Library) : String :=
  "Library \x7b operations: " ++ Text.Quoted.list lib.operationNames ++
    ", functions: " ++ Text.Quoted.list lib.functionNames ++
    ", constants: " ++ Text.Quoted.list lib.constantNames ++ " \x7d"

end Library

/-- name and arity; the body is left out -/
def Operation.debugText (p : Operation) : String :=
  "Operation \x7b name: " ++ Text.Quoted.encode p.name ++ ", arity: " ++ p.arity.debugText ++ ", .. \x7d"

end ComplexFormula

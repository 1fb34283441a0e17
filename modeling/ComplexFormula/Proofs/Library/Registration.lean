/-
Filling a library: a lookup finds the entry of its name that was registered last in its table, and otherwise what the
library held before. Registrations under other names or into other tables leave the lookup alone.

- `Library.Entry`, `Library.registerAll`: registrations in order.
- `operation?_registerAll`, `function?_registerAll`, `constant?_registerAll`: the lookups afterwards.
- `Library.resolve?_eq_some_iff`: where an operator is found.
-/
import ComplexFormula.Library.Standard

namespace ComplexFormula

namespace Library

/-! ## Registrations -/

/-- one registration -/
inductive Entry where
  | operation (p : Operation)
  | function (p : Operation)
  | constant (name : String) (z : Complex)

namespace Entry

/-- the operation that the entry puts under a name -/
def operation? (name : String) : Entry → Option Operation
  | .operation p => if p.name = name then some p else none
  | _ => none

/-- the function that the entry puts under a name -/
def function? (name : String) : Entry → Option Operation
  | .function p => if p.name = name then some p else none
  | _ => none

/-- the constant that the entry puts under a name -/
def constant? (name : String) : Entry → Option Complex
  | .constant other z => if other = name then some z else none
  | _ => none

end Entry

/-- the library with one more entry -/
def register (lib : Library) : Entry → Library
  | .operation p => lib.registerOperation p
  | .function p => lib.registerFunction p
  | .constant name z => lib.registerConstant name z

/-- the library with entries registered from left to right -/
def registerAll (lib : Library) (es : List Entry) : Library := es.foldl register lib

/-! ## One registration -/

theorem operation?_register (lib : Library) (e : Entry) (name : String) :
    (lib.register e).operation? name = (e.operation? name).or (lib.operation? name) := by
  cases e with
  | operation p =>
    refine (Table.get?_insert _ _ _ _).trans ?_
    rw [Entry.operation?]
    split <;> rfl
  | function p | constant other z => rfl

theorem function?_register (lib : Library) (e : Entry) (name : String) :
    (lib.register e).function? name = (e.function? name).or (lib.function? name) := by
  cases e with
  | function p =>
    refine (Table.get?_insert _ _ _ _).trans ?_
    rw [Entry.function?]
    split <;> rfl
  | operation p | constant other z => rfl

theorem constant?_register (lib : Library) (e : Entry) (name : String) :
    (lib.register e).constant? name = (e.constant? name).or (lib.constant? name) := by
  cases e with
  | constant other z =>
    refine (Table.get?_insert _ _ _ _).trans ?_
    rw [Entry.constant?]
    split <;> rfl
  | operation p | function p => rfl

/-! ## Many registrations -/

/-- a lookup that every registration either answers or leaves alone is answered by the last one that does -/
theorem lookup_registerAll {α : Type} (look : Library → Option α) (answer : Entry → Option α)
    (hone : ∀ lib e, look (lib.register e) = (answer e).or (look lib)) (lib : Library) (es : List Entry) :
    look (lib.registerAll es) = (es.reverse.findSome? answer).or (look lib) := by
  induction es generalizing lib with
  | nil => rfl
  | cons e es ih =>
    have hlast : (e :: es).reverse.findSome? answer = (es.reverse.findSome? answer).or (answer e) := by
      simp [List.findSome?_append]
    rw [registerAll, List.foldl_cons, hlast, Option.or_assoc, ← hone]
    exact ih (lib.register e)

/-- the operation registered last under a name -/
theorem operation?_registerAll (lib : Library) (es : List Entry) (name : String) :
    (lib.registerAll es).operation? name = (es.reverse.findSome? (Entry.operation? name)).or (lib.operation? name) :=
  lookup_registerAll (operation? · name) (Entry.operation? name) (operation?_register · · name) lib es

/-- the function registered last under a name -/
theorem function?_registerAll (lib : Library) (es : List Entry) (name : String) :
    (lib.registerAll es).function? name = (es.reverse.findSome? (Entry.function? name)).or (lib.function? name) :=
  lookup_registerAll (function? · name) (Entry.function? name) (function?_register · · name) lib es

/-- the constant registered last under a name -/
theorem constant?_registerAll (lib : Library) (es : List Entry) (name : String) :
    (lib.registerAll es).constant? name = (es.reverse.findSome? (Entry.constant? name)).or (lib.constant? name) :=
  lookup_registerAll (constant? · name) (Entry.constant? name) (constant?_register · · name) lib es

/-- the entries of the functions that the extended library adds -/
theorem extended_eq_registerAll (entropy : UInt64) :
    extended entropy = core.registerAll ((functionEntries entropy).map .function) := by
  rw [registerAll, List.foldl_map]
  rfl

/-- functions leave the other two tables alone -/
theorem tables_foldl_registerFunction (lib : Library) (ps : List Operation) :
    (ps.foldl registerFunction lib).operations = lib.operations ∧
      (ps.foldl registerFunction lib).constants = lib.constants := by
  induction ps generalizing lib with
  | nil => exact ⟨rfl, rfl⟩
  | cons p ps ih => exact ih (lib.registerFunction p)

/-! ## Operators -/

/-- an operator is found among the operations, or among the functions if it is no operation -/
theorem resolve?_eq_some_iff {lib : Library} {name : String} {op : Operation} :
    lib.resolve? name = some op ↔
      lib.operation? name = some op ∨ lib.operation? name = none ∧ lib.function? name = some op := by
  unfold resolve?
  cases lib.operation? name <;> simp

end Library

end ComplexFormula

/-
Formulas: complex-valued functions of complex arguments made from their written definitions. A recipe says what to
build and how: the source, the library, whether guarded clauses count, and further hooks.

- `Recipe.build`: scanning with the imaginary unit, reading, dropping or keeping the clauses, looking up names.
- `Recipe.journal`: what is worth noting on the way.
- `Formula.call`: arguments are widened to complex numbers, and so is the value.
- `Formula.callWith`: the same for arguments in any form that can be passed as a value.
-/
import ComplexFormula.Declaration.Reading
import ComplexFormula.Library.Standard
import ComplexFormula.Procedure
import ComplexFormula.Token.Hook

namespace ComplexFormula

/-! ## Formulas -/

/-- a complex-valued function together with its definition -/
structure Formula where
  procedure : Procedure

namespace Formula

def name (f : Formula) : String := f.procedure.declaration.name

def arity (f : Formula) : Nat := f.procedure.arity

/-- the value at the arguments, all of them taken as complex numbers -/
def call (f : Formula) (args : List Value) : Except Fault Complex :=
  (f.procedure.call (args.map fun v => .complex v.toComplex)).map Value.toComplex

/-- the value at arguments in any form -/
def callWith {α : Type} [ToValue α] (f : Formula) (args : List α) : Except Fault Complex := f.call (args.map toValue)

/-- the definition written out -/
def text (f : Formula) : String := f.procedure.declaration.text

/-- name and parameters -/
def debugText (f : Formula) : String :=
  "ComplexFunction \x7b name: " ++ Text.Quoted.encode f.name ++ ", params: " ++
    Text.Quoted.list f.procedure.declaration.paramNames ++ ", .. \x7d"

end Formula

/-! ## Recipes -/

/-- what becomes of the guarded clauses of a definition -/
inductive ClausePolicy where
  /-- only the unguarded body counts -/
  | strip
  /-- clauses are tried before the body -/
  | keep
deriving DecidableEq, Repr, Inhabited

/-- the definition under a policy -/
def ClausePolicy.applyTo : ClausePolicy → Declaration → Declaration
  | .strip, d => d.withoutClauses
  | .keep, d => d

/-- what to build a formula from -/
structure Recipe where
  source : String
  library : Library
  clauses : ClausePolicy := .strip
  /-- hooks behind that of the imaginary unit -/
  hooks : List Hook := []

namespace Recipe

/-- the recipe of a source with everything else as usual; `entropy` decides what `random` yields -/
def ofSource (entropy : UInt64) (source : String) : Recipe := { source, library := .extended entropy }

/-- the imaginary unit first, then the further hooks -/
def allHooks (r : Recipe) : List Hook := .imaginaryUnit :: r.hooks

/-- the tokens of the source -/
def tokens (r : Recipe) : Except Fault (List Token) := scanWith r.library r.allHooks r.source

/-- the definition as written -/
def declaration (r : Recipe) : Except Fault Declaration := do Declaration.ofTokens (← r.tokens)

/-- the formula of the source, or the first fault on the way -/
def build (r : Recipe) : Except Fault Formula := do
  let d ← r.declaration
  return ⟨← Procedure.ofDeclaration r.library (r.clauses.applyTo d)⟩

/-- the event of a formula built from a definition -/
def builtEvent (f : Formula) (d : Declaration) : Event :=
  .built f.name f.procedure.declaration.paramNames f.procedure.declaration.clauses.length d.clauses.length

/-- what the hooks report, then the scan, then the formula, as far as the build gets -/
def journal (r : Recipe) : List Event :=
  match r.tokens with
  | .error _ => []
  | .ok tokens =>
    let scanned := hookEvents r.library r.allHooks r.source ++ [.scanned tokens.length r.source]
    match r.declaration, r.build with
    | .ok d, .ok f => scanned ++ [builtEvent f d]
    | _, _ => scanned

end Recipe

/-- the formula of a source with everything else as usual; `entropy` decides what `random` yields -/
def Formula.ofSource (entropy : UInt64) (source : String) : Except Fault Formula :=
  (Recipe.ofSource entropy source).build

end ComplexFormula

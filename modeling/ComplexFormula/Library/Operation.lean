/-
Operations: a name, an arity and a body. A body is lifted from a function on complex numbers, which sees every operand
widened, or from a function on real numbers, which refuses an operand with an imaginary part. Operations are compared
by name and arity alone.

- `onComplex`, `onReal`: the two lifts.
- `Operation.call`: the body behind the test of the operand count.
-/
import ComplexFormula.Fault
import ComplexFormula.Value

namespace ComplexFormula

/-- what an operation does with its operands -/
abbrev OperationBody := List Value → Except DomainFault Complex

/-- a function of complex numbers applied to the widened operands; it never fails -/
def onComplex (f : List Complex → Complex) : OperationBody := fun args => .ok (f (args.map Value.toComplex))

/-- the real number that an operand denotes, for the operation called `name` -/
def realOperand (name : String) (v : Value) : Except DomainFault Binary64 :=
  let z := v.toComplex
  if z.im != 0 then .error (.complexUnsupported name) else .ok z.re

/-- a function of real numbers applied to operands that all have to be real -/
def onReal (name : String) (f : List Binary64 → Except DomainFault Binary64) : OperationBody := fun args =>
  do
    let xs ← args.mapM (realOperand name)
    let x ← f xs
    return .ofReal x

/-- a named operation or function -/
structure Operation where
  name : String
  arity : Arity
  body : OperationBody

namespace Operation

/-- bodies have no identity to compare -/
instance : BEq Operation where
  beq p q := p.name == q.name && p.arity == q.arity

/-- the value at the operands, if their number is accepted -/
def call (p : Operation) (args : List Value) : Except Fault Complex :=
  if p.arity.accepts args.length then (p.body args).mapError .domain
  else .error (.arity p.name p.arity args.length)

/-- an operation of one complex operand -/
def unary (name : String) (f : Complex → Complex) : Operation :=
  ⟨name, .exact 1, onComplex fun zs => f (zs.headD .zero)⟩

/-- an operation of two complex operands -/
def binary (name : String) (f : Complex → Complex → Complex) : Operation :=
  ⟨name, .exact 2, onComplex fun zs => f (zs.getD 0 .zero) (zs.getD 1 .zero)⟩

end Operation

end ComplexFormula

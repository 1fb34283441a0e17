/-
What can go wrong, as causes. `DomainFault` is raised by an operation that refuses its operands; `Fault` covers the
whole way from text to function and the calls of a function. The wording stands in the `message` functions alone.

- `DomainFault`: a complex operand of a real operation, or a real operand outside the domain.
- `HeadPart`, `GrammarFault`: the ways in which tokens fail to form a definition.
- `Fault`: everything, with the byte position where there is one.
-/
import ComplexFormula.Decimal.Notation
import ComplexFormula.Library.Arity

namespace ComplexFormula

/-! ## Faults of operations -/

/-- why an operation refuses its operands -/
inductive DomainFault where
  /-- an operand of a real operation has an imaginary part -/
  | complexUnsupported (operation : String)
  /-- a real operation has no value at a real operand -/
  | undefined (operation : String) (operand : Binary64)
deriving DecidableEq, Repr

namespace DomainFault

/-- the operation that refuses -/
def operation : DomainFault → String
  | .complexUnsupported name => name
  | .undefined name _ => name

def message : DomainFault → String
  | .complexUnsupported name => "complex " ++ name ++ " is unsupported"
  | .undefined name x => name ++ " is undefined for " ++ Decimal.text x

end DomainFault

/-! ## Faults of grammar -/

/-- the deepest expression that is built: a leaf has depth one -/
def depthLimit : Nat := 1024

/-- what is due in the head of a definition -/
inductive HeadPart where
  | functionName
  | openingBracket
  | parameterName
  | separator
  | equalsSign
deriving DecidableEq, Repr

def HeadPart.text : HeadPart → String
  | .functionName => "a function name"
  | .openingBracket => "'('"
  | .parameterName => "a parameter name"
  | .separator => "',' or ')'"
  | .equalsSign => "'='"

/-- why tokens form no definition -/
inductive GrammarFault where
  /-- a token that cannot stand where it stands -/
  | unexpected (token : String)
  /-- the input ends where more is needed -/
  | unexpectedEnd
  /-- a token, or the end of the input if `none`, where a part of the head is due -/
  | misplaced (token : Option String) (due : HeadPart)
  | duplicateParameter (name : String)
  | severalBodies
  | missingBody
  | missingComparison
  | callWithoutBracket (name : String)
  | missingOperator (next : String)
  | factorialWithoutOperand
  | missingLeftOperand (operator : String)
  | unknownOperator (operator : String)
  | unclosedBracket
  | tooDeep
  | missingOperand (operation : String)
  | missingArguments (name : String)
  /-- no value in front of a closing bracket or a comma -/
  | missingValue (next : String)
  | unmatchedBracket
  | strayComma
  | expectedExpression
  | expectedOperator
  | emptyProgram
deriving DecidableEq, Repr

namespace GrammarFault

/-- a token, or the end of the input, that is not expected -/
def unexpectedText : Option String → String
  | some token => "unexpected '" ++ token ++ "'"
  | none => "unexpected end of input"

def message : GrammarFault → String
  | .unexpected token => unexpectedText (some token)
  | .unexpectedEnd => unexpectedText none
  | .misplaced token due => unexpectedText token ++ ", expected " ++ due.text
  | .duplicateParameter name => "duplicate parameter '" ++ name ++ "'"
  | .severalBodies => "a definition takes exactly one unguarded body"
  | .missingBody => "missing unguarded body"
  | .missingComparison => "a guard needs a comparison"
  | .callWithoutBracket name => "expected '(' after '" ++ name ++ "'"
  | .missingOperator next => "expected an operator before '" ++ next ++ "'"
  | .factorialWithoutOperand => "'!' needs an operand"
  | .missingLeftOperand operator => "'" ++ operator ++ "' needs a left operand"
  | .unknownOperator operator => "unknown operator '" ++ operator ++ "'"
  | .unclosedBracket => "unclosed bracket"
  | .tooDeep => "expression nested deeper than " ++ toString depthLimit ++ " levels"
  | .missingOperand operation => "missing operand for " ++ operation
  | .missingArguments name => "missing arguments for " ++ name
  | .missingValue next => "expected a value before '" ++ next ++ "'"
  | .unmatchedBracket => "unmatched ')'"
  | .strayComma => "',' outside of an argument list"
  | .expectedExpression => "expected an expression"
  | .expectedOperator => "expected an operator"
  | .emptyProgram => "empty program"

end GrammarFault

/-! ## All faults -/

/-- why a definition yields no function, or a function no value; positions are byte offsets -/
inductive Fault where
  /-- a character that starts no token -/
  | unexpectedCharacter (char : Char) (pos : Nat)
  /-- a literal that denotes no number -/
  | invalidNumber (text : String) (pos : Nat)
  | grammar (cause : GrammarFault) (pos : Nat)
  /-- neither a parameter nor a constant -/
  | unknownIdentifier (name : String)
  /-- no entry for an operator or a function -/
  | unknownOperation (name : String)
  | arity (name : String) (expected : Arity) (found : Nat)
  /-- a function called with the wrong number of arguments -/
  | argumentCount (expected found : Nat)
  | domain (cause : DomainFault)
deriving DecidableEq, Repr

namespace Fault

def message : Fault → String
  | .unexpectedCharacter char pos => "unexpected character '" ++ char.toString ++ "' at " ++ toString pos
  | .invalidNumber text pos => "invalid number \"" ++ text ++ "\" at " ++ toString pos
  | .grammar cause pos => "syntax error at " ++ toString pos ++ ": " ++ cause.message
  | .unknownIdentifier name => "unknown identifier \"" ++ name ++ "\""
  | .unknownOperation name => "unknown operation \"" ++ name ++ "\""
  | .arity name expected found =>
    name ++ " takes " ++ expected.text ++ " argument(s) but " ++ toString found ++ " were supplied"
  | .argumentCount expected found =>
    "function expects " ++ toString expected ++ " argument(s) but " ++ toString found ++ " were supplied"
  | .domain cause => cause.message

end Fault

end ComplexFormula

/-
Tokens: a classified piece of the source together with the bytes it was read from.

- `Token`: kind, text and byte range.
- `Token.is`, `Token.withKind`: the test and the change that reclassification needs.
-/

namespace ComplexFormula

/-- the classification of a token -/
inductive Token.Kind where
  | number
  /-- a letter with digits that is no word of the library -/
  | identifier
  | constant
  | function
  /-- one of `if`, `otherwise`, `and`, `mod` -/
  | keyword
  /-- one of `+ - * / ^ % !` -/
  | operator
  /-- one of `== != < <= > >=` -/
  | comparison
  | leftParen
  | rightParen
  | comma
  | semicolon
  | bar
  | equals
deriving DecidableEq, Repr

/-- a classified piece of the source, from byte `start` up to but not including byte `stop` -/
structure Token where
  kind : Token.Kind
  text : String
  start : Nat
  stop : Nat
deriving DecidableEq, Repr

namespace Token

/-- the token has that kind and that text -/
def is (t : Token) (kind : Kind) (text : String) : Bool := t.kind == kind && t.text == text

/-- the same piece of source under another classification -/
def withKind (t : Token) (kind : Kind) : Token := { t with kind }

/-- the text followed by the byte range -/
def debugText (t : Token) : String := t.text ++ " [" ++ toString t.start ++ ", " ++ toString t.stop ++ ")"

end Token

end ComplexFormula

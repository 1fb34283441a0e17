/-
Reading a definition from tokens:

    name(p, q, ...) = piece; piece; ...
    piece:  expression if guard    or    expression [otherwise]
    guard:  chain {and chain}
    chain:  expression relation expression {relation expression}

Exactly one piece stands without a guard: the body. A chain of comparisons holds when each neighbouring pair does.

- `split`: tokens cut at separators.
- `readHead`, `readGuard`, `readPieces`: the parts of a definition.
- `Declaration.ofTokens`: the definition of a list of tokens.
-/
import ComplexFormula.Declaration.Basic
import ComplexFormula.Expr.Assembly

namespace ComplexFormula

/-- the byte where the tokens end, `fallback` if there are none -/
def endOf (tokens : List Token) (fallback : Nat) : Nat := (tokens.getLast?.map Token.stop).getD fallback

/-! ## Cutting -/

/-- a token put in front of tokens that were cut, as the first of the first piece or as a separator -/
def splitStep (isSeparator : Token → Bool) (t : Token) :
    List Token × List (Token × List Token) → List Token × List (Token × List Token)
  | (first, others) => if isSeparator t then ([], (t, first) :: others) else (t :: first, others)

/-- the tokens in front of the first separator, and each separator with the tokens up to the next one -/
def split (isSeparator : Token → Bool) (tokens : List Token) : List Token × List (Token × List Token) :=
  tokens.foldr (splitStep isSeparator) ([], [])

/-- the pieces between the separators -/
def pieces (isSeparator : Token → Bool) (tokens : List Token) : List (List Token) :=
  let (first, others) := split isSeparator tokens
  first :: others.map Prod.snd

/-! ## Head -/

/-- the first token if it is of the kind that is due, and the tokens behind it -/
def expect (kind : Token.Kind) (due : HeadPart) (stop : Nat) : List Token → Except Fault (Token × List Token)
  | [] => .error (.grammar (.misplaced none due) stop)
  | t :: ts => if t.kind = kind then .ok (t, ts) else .error (.grammar (.misplaced (some t.text) due) t.start)

/-- the parameters up to the closing bracket, behind those already read, which are given latest first -/
def readParams (stop : Nat) (done : List Param) : List Token → Except Fault (List Param × List Token)
  | [] => .error (.grammar (.misplaced none .parameterName) stop)
  | t :: ts =>
    if t.kind ≠ .identifier then .error (.grammar (.misplaced (some t.text) .parameterName) t.start)
    else if done.any (·.name == t.text) then .error (.grammar (.duplicateParameter t.text) t.start)
    else
      let done := ⟨t.text, done.length⟩ :: done
      match ts with
      | [] => .error (.grammar (.misplaced none .separator) stop)
      | separator :: rest =>
        if separator.kind = .rightParen then .ok (done.reverse, rest)
        else if separator.kind = .comma then readParams stop done rest
        else .error (.grammar (.misplaced (some separator.text) .separator) separator.start)

/-- the name and the parameters of a definition, and the tokens behind the equals sign -/
def readHead (stop : Nat) (tokens : List Token) : Except Fault (String × List Param × List Token) := do
  let (name, tokens) ← expect .identifier .functionName stop tokens
  let (_, tokens) ← expect .leftParen .openingBracket stop tokens
  let (params, tokens) ←
    match tokens with
    | t :: rest => if t.kind = .rightParen then .ok ([], rest) else readParams stop [] tokens
    | [] => readParams stop [] []
  let (_, tokens) ← expect .equals .equalsSign stop tokens
  return (name.text, params, tokens)

/-! ## Guards -/

/-- a token that compares -/
def isRelation (t : Token) : Bool := t.kind == .comparison || t.kind == .equals

/-- the relation of a token that compares -/
def relationOf (t : Token) : Except Fault Relation :=
  match Relation.ofSymbol? t.text with
  | some r => .ok r
  | none => .error (.grammar (.unexpected t.text) t.start)

/-- the operands of a chain, the first one and each further one with the relation in front of it; `stop` is where the
chain ends -/
def readChain (params : List Param) (stop : Nat) (first : List Token) :
    List (Token × List Token) → Except Fault (Expr × List (Relation × Expr))
  | [] => do return (← Expr.ofTokens params stop first, [])
  | (t, next) :: others => do
    let r ← relationOf t
    let e ← Expr.ofTokens params t.start first
    let (e', links) ← readChain params stop next others
    return (e, (r, e') :: links)

/-- the comparisons of neighbours in a chain -/
def neighbours (left : Expr) : List (Relation × Expr) → List Comparison
  | [] => []
  | (r, right) :: links => ⟨r, left, right⟩ :: neighbours right links

/-- the comparisons of one chain -/
def readComparisons (params : List Param) (stop : Nat) (tokens : List Token) : Except Fault (List Comparison) :=
  match split isRelation tokens with
  | (_, []) => .error (.grammar .missingComparison ((tokens.head?.map Token.start).getD stop))
  | (first, others) => do
    let (e, links) ← readChain params (endOf tokens stop) first others
    return neighbours e links

/-- the comparisons of a guard -/
def readGuard (params : List Param) (stop : Nat) (tokens : List Token) : Except Fault (List Comparison) := do
  let chains ← (pieces (·.is .keyword "and") tokens).mapM (readComparisons params stop)
  return chains.flatten

/-! ## Pieces -/

/-- the tokens in front of the first `if`, that token, and the tokens behind it -/
def splitIf? (piece : List Token) : Option (List Token × Token × List Token) :=
  match piece.dropWhile (!·.is .keyword "if") with
  | [] => none
  | t :: guard => some (piece.takeWhile (!·.is .keyword "if"), t, guard)

/-- a closing `otherwise` left out -/
def withoutOtherwise (piece : List Token) : List Token :=
  if piece.getLast?.any (·.is .keyword "otherwise") then piece.dropLast else piece

/-- a guarded piece -/
def readClause (params : List Param) (stop : Nat) (value : List Token) (t : Token) (guard : List Token) :
    Except Fault Clause := do
  let value ← Expr.ofTokens params t.start value
  let guard ← readGuard params stop guard
  return ⟨guard, value⟩

/-- an unguarded piece that begins at byte `pos` -/
def readBody (params : List Param) (pos : Nat) (piece : List Token) : Except Fault Expr :=
  let piece := withoutOtherwise piece
  Expr.ofTokens params (endOf piece pos) piece

/-- the body and the clauses of the remaining pieces, given the body if it has been read and the clauses read so far,
latest first; empty pieces count for nothing -/
def readPieces (params : List Param) (stop : Nat) (body? : Option Expr) (done : List Clause) :
    List (List Token) → Except Fault (Expr × List Clause)
  | [] =>
    match body? with
    | some body => .ok (body, done.reverse)
    | none => .error (.grammar .missingBody stop)
  | [] :: rest => readPieces params stop body? done rest
  | (t :: ts) :: rest =>
    match splitIf? (t :: ts) with
    | some (value, opener, guard) =>
      match readClause params (endOf (t :: ts) stop) value opener guard with
      | .error fault => .error fault
      | .ok clause => readPieces params stop body? (clause :: done) rest
    | none =>
      match body? with
      | some _ => .error (.grammar .severalBodies t.start)
      | none =>
        match readBody params t.start (t :: ts) with
        | .error fault => .error fault
        | .ok body => readPieces params stop (some body) done rest

/-- the definition that the tokens form -/
def Declaration.ofTokens (tokens : List Token) : Except Fault Declaration := do
  let stop := endOf tokens 0
  let (name, params, rest) ← readHead stop tokens
  let (body, clauses) ← readPieces params stop none [] (pieces (·.kind == .semicolon) rest)
  return ⟨name, params, body, clauses⟩

end ComplexFormula

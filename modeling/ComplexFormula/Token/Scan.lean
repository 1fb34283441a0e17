/-
Scanning: a text is cut into tokens from left to right, white space between them left out. Numbers take digits, points
and an exponent that has a digit; a letter begins the first word of the lexicon that stands there, or else an identifier
made of that letter and the digits behind it; all other tokens are symbols of one or two characters.

- `extent?`: the kind of the token at a place and its length.
- `extent_pos`: every token has characters, so the scan ends.
- `scanFrom`: the tokens of the rest of a text.
- `scan`: the tokens of a text.
-/
import ComplexFormula.Decimal.Reading
import ComplexFormula.Text.Blank
import ComplexFormula.Token.Lexicon

namespace ComplexFormula

open Decimal (isDigit)

/-- an ASCII letter -/
def isLetter (c : Char) : Bool := ('a' ≤ c && c ≤ 'z') || ('A' ≤ c && c ≤ 'Z')

/-- a character of the mantissa of a number -/
def isMantissa (c : Char) : Bool := isDigit c || c == '.'

/-- the number of characters of a sign that may be missing -/
def signLength : List Char → Nat
  | '+' :: _ | '-' :: _ => 1
  | _ => 0

/-- the number of characters of an exponent at the beginning of a text; without a digit there is none -/
def exponentLength : List Char → Nat
  | [] => 0
  | c :: cs =>
    let sign := signLength cs
    let size := ((cs.drop sign).takeWhile isDigit).length
    if (c = 'e' ∨ c = 'E') ∧ 0 < size then 1 + sign + size else 0

/-- the number of characters of a number at the beginning of a text -/
def numberLength (text : List Char) : Nat :=
  let size := (text.takeWhile isMantissa).length
  size + exponentLength (text.drop size)

/-- the token at a letter -/
def wordExtent (words : List Word) (c : Char) (cs : List Char) : Token.Kind × Nat :=
  match firstWord? (c :: cs) words with
  | some w => (w.kind, w.letters.length)
  | none => (.identifier, 1 + (cs.takeWhile isDigit).length)

/-- the token at a symbol -/
def symbolExtent? (c : Char) (cs : List Char) : Option (Token.Kind × Nat) :=
  let doubled := cs.head? == some '='
  match c with
  | '+' | '-' | '*' | '/' | '^' | '%' => some (.operator, 1)
  | '!' => some (if doubled then (.comparison, 2) else (.operator, 1))
  | '=' => some (if doubled then (.comparison, 2) else (.equals, 1))
  | '<' | '>' => some (.comparison, if doubled then 2 else 1)
  | '(' => some (.leftParen, 1)
  | ')' => some (.rightParen, 1)
  | ',' => some (.comma, 1)
  | ';' => some (.semicolon, 1)
  | '|' => some (.bar, 1)
  | _ => none

/-- the kind of the token that begins with c, and its number of characters -/
def extent? (words : List Word) (c : Char) (cs : List Char) : Option (Token.Kind × Nat) :=
  if isMantissa c then some (.number, numberLength (c :: cs))
  else if isLetter c then some (wordExtent words c cs)
  else symbolExtent? c cs

/-! ## Every token has characters -/

section

variable {words : List Word} {c : Char} {cs : List Char} {kind : Token.Kind} {size : Nat}

theorem numberLength_pos (hc : isMantissa c = true) : 0 < numberLength (c :: cs) := by
  simp only [numberLength, List.takeWhile_cons_of_pos hc, List.length_cons]
  omega

theorem wordExtent_pos (h : wordExtent words c cs = (kind, size)) : 0 < size := by
  unfold wordExtent at h
  split at h
  case h_1 w _ =>
    obtain ⟨-, rfl⟩ := Prod.mk.inj h
    exact w.length_pos
  case h_2 =>
    obtain ⟨-, rfl⟩ := Prod.mk.inj h
    omega

theorem symbolExtent_pos (h : symbolExtent? c cs = some (kind, size)) : 0 < size := by
  unfold symbolExtent? at h
  split at h <;> simp only [Option.some.injEq, reduceCtorEq] at h <;> (try split at h) <;>
    obtain ⟨-, rfl⟩ := Prod.mk.inj h <;> omega

theorem extent_pos (h : extent? words c cs = some (kind, size)) : 0 < size := by
  unfold extent? at h
  split at h
  case isTrue hc =>
    obtain ⟨-, rfl⟩ := Prod.mk.inj (Option.some.inj h)
    exact numberLength_pos hc
  case isFalse =>
    split at h
    case isTrue => exact wordExtent_pos (Option.some.inj h)
    case isFalse => exact symbolExtent_pos h

end

/-! ## Scanning -/

/-- the token of the given kind whose text begins at byte `pos`; a number has to denote one -/
def tokenAt (kind : Token.Kind) (pos : Nat) (text : String) : Except Fault Token :=
  if kind = .number ∧ (Decimal.read? text).isNone then .error (.invalidNumber text pos)
  else .ok ⟨kind, text, pos, pos + text.utf8ByteSize⟩

/-- the tokens of a text that begins at byte `pos`, behind those already read, which are given latest first -/
def scanFrom (words : List Word) (pos : Nat) (done : List Token) : List Char → Except Fault (List Token)
  | [] => .ok done.reverse
  | c :: cs =>
    if Text.isBlank c then scanFrom words (pos + c.utf8Size) done cs
    else
      match _h : extent? words c cs with
      | none => .error (.unexpectedCharacter c pos)
      | some (kind, size) =>
        match tokenAt kind pos (.ofList ((c :: cs).take size)) with
        | .error fault => .error fault
        | .ok t => scanFrom words t.stop (t :: done) ((c :: cs).drop size)
termination_by cs => cs.length
decreasing_by
  · exact Nat.lt_succ_self _
  · have hpos := extent_pos ‹_›
    rw [List.length_drop, List.length_cons]
    omega

/-- the tokens of a text under the words of a library -/
def scan (lib : Library) (source : String) : Except Fault (List Token) := scanFrom lib.lexicon 0 [] source.toList

end ComplexFormula

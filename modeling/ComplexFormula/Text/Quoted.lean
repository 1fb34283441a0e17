/-
Quoted texts: double quotes around the text; a double quote, a backslash, tab, newline, carriage return and the null
character are written with a backslash, a character without an image of its own as its code point in braces.

- `encode`: the quoted form of a text.
- `list`: a list of quoted texts in brackets.
-/
import ComplexFormula.Text.Unprintable

namespace ComplexFormula.Text.Quoted

/-- the hexadecimal digits of n in front of `tail`; `fuel` bounds their number -/
def hexOnto : Nat → Nat → List Char → List Char
  | 0, _, tail => tail
  | fuel + 1, n, tail =>
    let tail := Nat.digitChar (n % 16) :: tail
    if n < 16 then tail else hexOnto fuel (n / 16) tail

/-- one character inside the quotes -/
def encodeChar (c : Char) : List Char :=
  if c = '"' ∨ c = '\\' then ['\\', c]
  else if c = '\t' then ['\\', 't']
  else if c = '\n' then ['\\', 'n']
  else if c = '\r' then ['\\', 'r']
  else if c = '\x00' then ['\\', '0']
  else if isUnprintable c then '\\' :: 'u' :: '\x7b' :: hexOnto 6 c.toNat ['\x7d']
  else [c]

/-- the quoted form of a text -/
def encode (s : String) : String := .ofList ('"' :: s.toList.flatMap encodeChar ++ ['"'])

/-- quoted texts in brackets -/
def list (ss : List String) : String := "[" ++ ", ".intercalate (ss.map encode) ++ "]"

end ComplexFormula.Text.Quoted

/-
White space: the characters with the property White_Space, 25 in all.

- `isBlank`: membership.
-/

namespace ComplexFormula.Text

/-- the code point of c lies in one of the closed ranges -/
def inRanges (ranges : List (Nat × Nat)) (c : Char) : Bool :=
  ranges.any fun r => r.1 ≤ c.toNat && c.toNat ≤ r.2

/-- the property White_Space, as closed ranges of code points -/
def blankRanges : List (Nat × Nat) :=
  [(0x09, 0x0D), (0x20, 0x20), (0x85, 0x85), (0xA0, 0xA0), (0x1680, 0x1680), (0x2000, 0x200A), (0x2028, 0x2029),
    (0x202F, 0x202F), (0x205F, 0x205F), (0x3000, 0x3000)]

/-- a white space character -/
def isBlank (c : Char) : Bool := inRanges blankRanges c

end ComplexFormula.Text

/-
How far tokens reach. A number, a word and a symbol each have at least one character (`extent_pos`) and no more than
the text has, so a token cuts a text in two: its own characters, and those behind it.

- `numberLength_le`, `wordExtent_le`, `symbolExtent_le`: each kind of token is within the text.
- `exists_cut`: **a token and what is behind it** make up the text.
-/
import ComplexFormula.Token.Scan

namespace ComplexFormula

open Decimal (isDigit)

variable {words : List Word} {c : Char} {cs : List Char} {kind : Token.Kind} {size : Nat}

/-! ## Numbers -/

/-- the digits of an exponent are behind its sign, and there is room for both -/
theorem signLength_add_le (cs : List Char) (h : 0 < ((cs.drop (signLength cs)).takeWhile isDigit).length) :
    signLength cs + ((cs.drop (signLength cs)).takeWhile isDigit).length ≤ cs.length := by
  have hle := (List.takeWhile_prefix (l := cs.drop (signLength cs)) isDigit).length_le
  rw [List.length_drop] at hle
  omega

theorem exponentLength_le (cs : List Char) : exponentLength cs ≤ cs.length := by
  cases cs with
  | nil => exact Nat.le_refl _
  | cons c cs =>
    rw [exponentLength]
    split
    case isTrue h =>
      have hle := signLength_add_le cs h.2
      rw [List.length_cons]
      omega
    case isFalse => exact Nat.zero_le _

theorem numberLength_le (text : List Char) : numberLength text ≤ text.length := by
  have hmantissa := (List.takeWhile_prefix (l := text) isMantissa).length_le
  have hexponent := exponentLength_le (text.drop (text.takeWhile isMantissa).length)
  rw [List.length_drop] at hexponent
  rw [numberLength]
  omega

/-! ## Words and symbols -/

theorem wordExtent_of_some {w : Word} (h : firstWord? (c :: cs) words = some w) :
    wordExtent words c cs = (w.kind, w.letters.length) := by
  simp only [wordExtent, h]

theorem wordExtent_of_none (h : firstWord? (c :: cs) words = none) :
    wordExtent words c cs = (.identifier, 1 + (cs.takeWhile isDigit).length) := by
  simp only [wordExtent, h]

theorem wordExtent_le (h : wordExtent words c cs = (kind, size)) : size ≤ (c :: cs).length := by
  cases hfirst : firstWord? (c :: cs) words with
  | some w =>
    rw [wordExtent_of_some hfirst] at h
    obtain ⟨-, rfl⟩ := Prod.mk.inj h
    exact (begins_of_firstWord? hfirst).length_le
  | none =>
    rw [wordExtent_of_none hfirst] at h
    obtain ⟨-, rfl⟩ := Prod.mk.inj h
    have hdigits := (List.takeWhile_prefix (l := cs) isDigit).length_le
    rw [List.length_cons]
    omega

/-- a symbol of one character stays one where no equals sign follows, and one of two characters ends in that sign -/
theorem symbolExtent_cases (h : symbolExtent? c cs = some (kind, size)) :
    (size = 1 ∧ ∀ cs', (cs'.head? == some '=') = false → symbolExtent? c cs' = some (kind, 1)) ∨
      size = 2 ∧ cs.head? = some '=' ∧
        ∀ cs', (cs'.head? == some '=') = true → symbolExtent? c cs' = some (kind, 2) := by
  cases hdoubled : cs.head? == some '=' with
  | true =>
    simp only [symbolExtent?, hdoubled, if_true] at h
    split at h <;> simp_all [symbolExtent?]
  | false =>
    simp only [symbolExtent?, hdoubled, Bool.false_eq_true, if_false] at h
    split at h <;> simp_all [symbolExtent?]

theorem symbolExtent_le (h : symbolExtent? c cs = some (kind, size)) : size ≤ (c :: cs).length := by
  obtain ⟨rfl, -⟩ | ⟨rfl, hhead, -⟩ := symbolExtent_cases h
  · exact Nat.le_add_left 1 cs.length
  · obtain ⟨cs', rfl⟩ := List.head?_eq_some_iff.1 hhead
    exact Nat.le_add_left 2 cs'.length

/-! ## Tokens -/

theorem extent_of_isMantissa (hc : isMantissa c = true) :
    extent? words c cs = some (.number, numberLength (c :: cs)) := if_pos hc

theorem isMantissa_of_isLetter (h : isLetter c = true) : isMantissa c = false := by
  have ha : 'a'.val.toNat = 97 := rfl
  have hA : 'A'.val.toNat = 65 := rfl
  have h9 : '9'.val.toNat = 57 := rfl
  simp only [isLetter, Bool.or_eq_true, Bool.and_eq_true, decide_eq_true_eq, Char.le_def, UInt32.le_iff_toNat_le] at h
  simp only [isMantissa, isDigit, Bool.or_eq_false_iff, Bool.and_eq_false_iff, decide_eq_false_iff_not, Char.le_def,
    UInt32.le_iff_toNat_le]
  constructor
  · omega
  · rw [beq_eq_false_iff_ne]
    rintro rfl
    revert h
    decide

theorem extent_of_isLetter (hc : isLetter c = true) : extent? words c cs = some (wordExtent words c cs) := by
  rw [extent?, if_neg (by simp [isMantissa_of_isLetter hc]), if_pos hc]

theorem extent_of_symbol (hmantissa : ¬isMantissa c = true) (hletter : ¬isLetter c = true) :
    extent? words c cs = symbolExtent? c cs := by
  rw [extent?, if_neg hmantissa, if_neg hletter]

theorem extent_le (h : extent? words c cs = some (kind, size)) : size ≤ (c :: cs).length := by
  by_cases hmantissa : isMantissa c = true
  · rw [extent_of_isMantissa hmantissa] at h
    obtain ⟨-, rfl⟩ := Prod.mk.inj (Option.some.inj h)
    exact numberLength_le (c :: cs)
  · by_cases hletter : isLetter c = true
    · rw [extent_of_isLetter hletter] at h
      exact wordExtent_le (Option.some.inj h)
    · rw [extent_of_symbol hmantissa hletter] at h
      exact symbolExtent_le h

/-- **A token and what is behind it** make up the text. -/
theorem exists_cut (h : extent? words c cs = some (kind, size)) :
    ∃ part behind, cs = part ++ behind ∧ size = part.length + 1 := by
  have hpos := extent_pos h
  have hle := extent_le h
  rw [List.length_cons] at hle
  refine ⟨cs.take (size - 1), cs.drop (size - 1), (List.take_append_drop _ cs).symm, ?_⟩
  rw [List.length_take_of_le (by omega)]
  omega

end ComplexFormula

/-
Words and identifiers in a text. Which word is found at a place depends on nothing behind its end, as long as no
character of a name follows there; so a text that is read as a word once is read as that word wherever it stands alone.

- `firstWord?_of_begins`, `firstWord?_congr`: what the first word depends on.
- `Legible`: a text that is read as one word or identifier when it stands alone.
- `legible_of_wordExtent`: so is every word or identifier of a text that was scanned.
- `wordExtent_append_rest`, `Legible.wordExtent_append`: and it is read again in front of anything that is not part of a
  name.
-/
import ComplexFormula.Proofs.Scanning.Spelling
import Mathlib.Data.List.Find
import Mathlib.Data.List.Infix
import Mathlib.Data.List.TakeWhile

namespace ComplexFormula

open Decimal (isDigit)

/-! ## First words -/

/-- a beginning of the text that still begins with the word -/
theorem firstWord?_of_begins {text cut : List Char} {words : List Word} {w : Word}
    (h : firstWord? text words = some w) (hcut : cut <+: text) (hw : w.letters <+: cut) :
    firstWord? cut words = some w := by
  obtain ⟨-, before, behind, hwords, hbefore⟩ := firstWord?_eq_some_iff.1 h
  exact firstWord?_eq_some_iff.2 ⟨hw, before, behind, hwords, fun v hv hbegins => hbefore v hv (hbegins.trans hcut)⟩

theorem firstWord?_congr {text other : List Char} {words : List Word}
    (h : ∀ w ∈ words, w.letters <+: text ↔ w.letters <+: other) : firstWord? text words = firstWord? other words := by
  refine List.find?_congr fun w hw => ?_
  rw [Bool.eq_iff_iff, List.isPrefixOf_iff_prefix, List.isPrefixOf_iff_prefix, h w hw]

/-! ## Names -/

/-- a character of a name: an ASCII letter, a digit or `_` -/
def isNameChar (c : Char) : Bool := isLetter c || isDigit c || c == '_'

/-- words are made of characters of names -/
def Plain (words : List Word) : Prop := ∀ w ∈ words, ∀ c ∈ w.letters, isNameChar c = true

/-- nothing follows that could belong to a name or to a number -/
def Ends (rest : List Char) : Prop := ∀ c ∈ rest.head?, isNameChar c = false ∧ c ≠ '.'

/-- standing alone, the text is read as one word or identifier of that kind -/
def Legible (words : List Word) (l : Lexeme) : Prop :=
  ∃ c cs, l.text.toList = c :: cs ∧ isLetter c = true ∧ wordExtent words c cs = (l.kind, cs.length + 1)

section

variable {words : List Word} {c : Char} {cs part behind rest : List Char} {kind : Token.Kind} {l : Lexeme}
  {ls : List Lexeme}

/-- a run that is as long as a first part of the text is that part -/
theorem takeWhile_of_length {p : Char → Bool} (h : ((part ++ behind).takeWhile p).length = part.length) :
    (part ++ behind).takeWhile p = part :=
  (List.prefix_of_prefix_length_le (List.takeWhile_prefix p) (List.prefix_append part behind) h.le).eq_of_length h

/-- what is read as a word or an identifier is read so without the text behind it -/
theorem wordExtent_of_append (h : wordExtent words c (part ++ behind) = (kind, part.length + 1)) :
    wordExtent words c part = (kind, part.length + 1) := by
  have hcut : c :: part <+: c :: (part ++ behind) := (List.prefix_cons_inj c).2 (List.prefix_append part behind)
  cases hfirst : firstWord? (c :: (part ++ behind)) words with
  | some w =>
    rw [wordExtent_of_some hfirst] at h
    obtain ⟨-, hlength⟩ := Prod.mk.inj h
    have hw : w.letters <+: c :: part :=
      List.prefix_of_prefix_length_le (begins_of_firstWord? hfirst) hcut hlength.le
    rw [wordExtent_of_some (firstWord?_of_begins hfirst hcut hw), h]
  | none =>
    rw [wordExtent_of_none hfirst] at h
    obtain ⟨hkind, hlength⟩ := Prod.mk.inj h
    have hnone : firstWord? (c :: part) words = none := by
      rw [firstWord?_eq_none_iff] at hfirst ⊢
      exact fun w hw hbegins => hfirst w hw (hbegins.trans hcut)
    have hdigits : (part ++ behind).takeWhile isDigit = part := takeWhile_of_length (by omega)
    rw [wordExtent_of_none hnone, ← hkind, ← hdigits, List.takeWhile_idem, hdigits, Nat.add_comm]

/-- **What is read as a word or an identifier** is read so standing alone. -/
theorem legible_of_wordExtent (hc : isLetter c = true)
    (h : wordExtent words c (part ++ behind) = (kind, part.length + 1)) :
    Legible words ⟨kind, .ofList (c :: part)⟩ :=
  ⟨c, part, String.toList_ofList, hc, wordExtent_of_append h⟩

theorem Legible.nameChars (hwords : Plain words) (h : Legible words l) : ∀ c ∈ l.text.toList, isNameChar c = true := by
  obtain ⟨c, cs, htext, hc, hextent⟩ := h
  rw [htext]
  cases hfirst : firstWord? (c :: cs) words with
  | some w =>
    rw [wordExtent_of_some hfirst] at hextent
    obtain ⟨-, hlength⟩ := Prod.mk.inj hextent
    have hletters : w.letters = c :: cs := (begins_of_firstWord? hfirst).eq_of_length hlength
    rw [← hletters]
    exact hwords w (mem_of_firstWord? hfirst)
  | none =>
    rw [wordExtent_of_none hfirst] at hextent
    obtain ⟨-, hlength⟩ := Prod.mk.inj hextent
    have hdigits : cs.takeWhile isDigit = cs := (List.takeWhile_prefix isDigit).eq_of_length (by omega)
    intro b hb
    rcases List.mem_cons.1 hb with rfl | hb
    · simp [isNameChar, hc]
    · rw [← hdigits] at hb
      simp [isNameChar, List.mem_takeWhile_imp hb]

/-- a word does not reach beyond the text if what follows begins with none of its letters -/
theorem prefix_append_iff {w : List Char} (hrest : ∀ c ∈ rest.head?, c ∉ w) : w <+: cs ++ rest ↔ w <+: cs := by
  refine ⟨fun h => ?_, fun h => h.trans (List.prefix_append cs rest)⟩
  by_cases hlength : w.length ≤ cs.length
  · exact List.prefix_of_prefix_length_le h (List.prefix_append cs rest) hlength
  · obtain ⟨vs, rfl⟩ := List.prefix_of_prefix_length_le (List.prefix_append cs rest) h (by omega)
    rw [List.prefix_append_right_inj] at h
    cases vs with
    | nil => simp at hlength
    | cons v vs =>
      cases rest with
      | nil => simp at h
      | cons r rest =>
        obtain ⟨rfl, -⟩ := List.cons_prefix_cons.1 h
        exact absurd (List.mem_append_right cs List.mem_cons_self) (hrest v rfl)

theorem takeWhile_append {p : Char → Bool} (hcs : ∀ c ∈ cs, p c = true) (hrest : ∀ c ∈ rest.head?, p c = false) :
    (cs ++ rest).takeWhile p = cs := by
  rw [List.takeWhile_append_of_pos hcs]
  cases rest with
  | nil => simp
  | cons r rest => simp [hrest r rfl]

theorem takeWhile_append_of_ends {p : Char → Bool} (hp : ∀ c, p c = true → isNameChar c = true ∨ c = '.')
    (hcs : ∀ c ∈ cs, p c = true) (hrest : Ends rest) : (cs ++ rest).takeWhile p = cs := by
  refine takeWhile_append hcs fun r hr => ?_
  by_contra hpr
  rw [Bool.not_eq_false] at hpr
  rcases hp r hpr with hname | hdot
  · simp [(hrest r hr).1] at hname
  · exact (hrest r hr).2 hdot

/-- a word or an identifier is read in front of anything that begins with no letter of a word and no digit -/
theorem wordExtent_append_rest (hwords : ∀ w ∈ words, ∀ b ∈ rest.head?, b ∉ w.letters)
    (hdigit : ∀ b ∈ rest.head?, isDigit b = false) (h : wordExtent words c cs = (kind, cs.length + 1)) :
    wordExtent words c (cs ++ rest) = (kind, cs.length + 1) := by
  have hcongr : firstWord? (c :: (cs ++ rest)) words = firstWord? (c :: cs) words :=
    firstWord?_congr fun w hw => @prefix_append_iff (c :: cs) rest w.letters (hwords w hw)
  cases hfirst : firstWord? (c :: cs) words with
  | some w =>
    rw [wordExtent_of_some hfirst] at h
    rw [wordExtent_of_some (hcongr.trans hfirst), h]
  | none =>
    rw [wordExtent_of_none hfirst] at h
    obtain ⟨hkind, hlength⟩ := Prod.mk.inj h
    have hrun : cs.takeWhile isDigit = cs := (List.takeWhile_prefix isDigit).eq_of_length (by omega)
    have hdigits : ∀ b ∈ cs, isDigit b = true := by
      intro b hb
      rw [← hrun] at hb
      exact List.mem_takeWhile_imp hb
    rw [wordExtent_of_none (hcongr.trans hfirst), ← hkind, takeWhile_append hdigits hdigit, Nat.add_comm]

/-- **A legible text is read again** in front of anything that belongs neither to a name nor to a number. -/
theorem Legible.wordExtent_append (hwords : Plain words) (h : Legible words l) (htext : l.text.toList = c :: cs)
    (hrest : Ends rest) : wordExtent words c (cs ++ rest) = (l.kind, cs.length + 1) := by
  obtain ⟨c', cs', htext', -, hextent⟩ := h
  obtain ⟨rfl, rfl⟩ := List.cons.inj (htext.symm.trans htext')
  refine wordExtent_append_rest (fun w hw b hb hmem => ?_) (fun b hb => ?_) hextent
  · have hname := hwords w hw b hmem
    simp [(hrest b hb).1] at hname
  · have hname := (hrest b hb).1
    simp only [isNameChar, Bool.or_eq_false_iff] at hname
    exact hname.1.2

end

end ComplexFormula

/-
The words that a scanner knows: the functions and constants of a library with more than one byte in their names, and
the keywords. The longest are tried first, and words of the same letters as they are listed: a function is listed before
a constant, and a constant before a keyword.

- `Word`: a text that a scan takes as a whole; it has letters.
- `Library.wordList`, `Library.lexicon`: the words of a library in the order in which they are tried.
- `firstWord?`, `firstWord?_eq_some_iff`: the first of them that a text begins with.
-/
import ComplexFormula.Library.Basic
import ComplexFormula.Token.Basic

namespace ComplexFormula

/-- words with a grammatical meaning of their own -/
def keywords : List String := ["if", "otherwise", "and", "mod"]

/-- a word and the kind of token that it makes -/
structure Word where
  letters : List Char
  kind : Token.Kind
  ne_nil : letters ≠ []
deriving DecidableEq, Repr

namespace Word

/-- the letters as a text -/
def text (w : Word) : String := .ofList w.letters

/-- the word of that text, unless it is empty -/
def ofText? (kind : Token.Kind) (text : String) : Option Word :=
  if h : text.toList ≠ [] then some ⟨text.toList, kind, h⟩ else none

/-- the word may be tried before the other: it has more bytes, or as many and no greater text -/
def precedes (v w : Word) : Bool :=
  decide (w.text.utf8ByteSize < v.text.utf8ByteSize ∨
    w.text.utf8ByteSize = v.text.utf8ByteSize ∧ v.text ≤ w.text)

theorem length_pos (w : Word) : 0 < w.letters.length := List.length_pos_iff.2 w.ne_nil

@[simp] theorem toList_text (w : Word) : w.text.toList = w.letters := String.toList_ofList

theorem text_inj {v w : Word} : v.text = w.text ↔ v.letters = w.letters := String.ofList_inj

/-- a word is its text and its kind -/
theorem ext_text {v w : Word} (htext : v.text = w.text) (hkind : v.kind = w.kind) : v = w := by
  cases v
  cases w
  cases text_inj.1 htext
  cases hkind
  rfl

theorem ofText?_eq_some_iff {kind : Token.Kind} {text : String} {w : Word} :
    ofText? kind text = some w ↔ w.text = text ∧ w.kind = kind := by
  rw [ofText?]
  constructor
  · intro h
    split at h
    · obtain rfl := Option.some.inj h
      exact ⟨String.ofList_toList, rfl⟩
    · cases h
  · rintro ⟨rfl, rfl⟩
    have hne : w.text.toList ≠ [] := by
      rw [toList_text]
      exact w.ne_nil
    rw [dif_pos hne]
    exact congrArg some (ext_text String.ofList_toList rfl)

end Word

/-- the keywords as words -/
def keywordWords : List Word := keywords.filterMap (Word.ofText? .keyword)

namespace Library

/-- what a name of the library is read as -/
def role (lib : Library) (name : String) : Token.Kind := if lib.isFunction name then .function else .constant

/-- the word of a name in the library -/
def word? (lib : Library) (name : String) : Option Word := Word.ofText? (lib.role name) name

/-- the words of these names and the keywords, in the order in which they are tried -/
def wordList (lib : Library) (names : List String) : List Word :=
  Sorting.sort Word.precedes (names.filterMap lib.word? ++ keywordWords)

/-- the words of the library in the order in which they are tried -/
def lexicon (lib : Library) : List Word := lib.wordList lib.words

end Library

/-- the first of the words that the text begins with -/
def firstWord? (text : List Char) (words : List Word) : Option Word :=
  words.find? fun w => w.letters.isPrefixOf text

section

variable {text : List Char} {words : List Word} {w : Word}

theorem firstWord?_eq_none_iff : firstWord? text words = none ↔ ∀ w ∈ words, ¬w.letters <+: text := by
  simp [firstWord?]

theorem firstWord?_eq_some_iff : firstWord? text words = some w ↔ w.letters <+: text ∧
    ∃ before behind, words = before ++ w :: behind ∧ ∀ v ∈ before, ¬v.letters <+: text := by
  simp [firstWord?, List.find?_eq_some_iff_append, ← List.isPrefixOf_iff_prefix]

theorem mem_of_firstWord? (h : firstWord? text words = some w) : w ∈ words := List.mem_of_find?_eq_some h

theorem begins_of_firstWord? (h : firstWord? text words = some w) : w.letters <+: text :=
  (firstWord?_eq_some_iff.1 h).1

end

end ComplexFormula

/-
The order in which words are tried. They are sorted, the longest in bytes first and those of one length by their texts,
and a scan takes the first one that the text begins with. Words of the same letters stay as they are listed, so a
keyword is behind a function or constant of the same letters. The names of a library may come in any order, and a name
comes twice if it is that of a function and of a constant: none of this shows in the sorted list.

- `pairwise_wordList`: the sorted words, keywords behind other words of the same letters.
- `wordList_eq_lexicon`: **the sorted list** is the same for every order of the names.
- `Library.Reads`: the longest word that a text begins with, in its first role.
- `firstWord?_lexicon_iff`: **the first word** of the sorted list is that word.
-/
import ComplexFormula.Proofs.Scanning.Words
import Mathlib.Data.String.Basic

namespace ComplexFormula

open String (utf8Len)

variable {lib : Library} {text : List Char} {names : List String} {v w : Word}

/-! ## Sorted words -/

namespace Word

theorem precedes_iff : v.precedes w = true ↔ utf8Len w.letters < utf8Len v.letters ∨
    utf8Len w.letters = utf8Len v.letters ∧ v.text ≤ w.text := by
  rw [precedes, decide_eq_true_iff, text, text, String.utf8ByteSize_ofList, String.utf8ByteSize_ofList]

theorem precedes_trans (u v w : Word) (huv : u.precedes v = true) (hvw : v.precedes w = true) :
    u.precedes w = true := by
  rw [precedes_iff] at huv hvw ⊢
  rcases huv with huv | ⟨huv, hle⟩
  · rcases hvw with hvw | ⟨hvw, -⟩ <;> exact .inl (by omega)
  · rcases hvw with hvw | ⟨hvw, hle'⟩
    · exact .inl (by omega)
    · exact .inr ⟨hvw.trans huv, String.le_trans hle hle'⟩

theorem precedes_total (v w : Word) : v.precedes w = true ∨ w.precedes v = true := by
  rw [precedes_iff, precedes_iff]
  rcases Nat.lt_trichotomy (utf8Len v.letters) (utf8Len w.letters) with hlt | heq | hgt
  · exact .inr (.inl hlt)
  · rcases String.le_total v.text w.text with hle | hle
    · exact .inl (.inr ⟨heq.symm, hle⟩)
    · exact .inr (.inr ⟨heq, hle⟩)
  · exact .inl (.inl hgt)

theorem utf8Len_le_of_precedes (h : v.precedes w = true) : utf8Len w.letters ≤ utf8Len v.letters := by
  rcases precedes_iff.1 h with hlt | ⟨heq, -⟩ <;> omega

/-- words tie if they have the same letters, and in no other case -/
theorem precedes_antisymm_iff : v.precedes w = true ∧ w.precedes v = true ↔ v.text = w.text := by
  rw [precedes_iff, precedes_iff]
  constructor
  · rintro ⟨hlt | ⟨heq, hle⟩, hlt' | ⟨heq', hle'⟩⟩
    · omega
    · omega
    · omega
    · exact String.le_antisymm hle hle'
  · intro htext
    rw [htext, text_inj.1 htext]
    exact ⟨.inr ⟨rfl, String.le_refl _⟩, .inr ⟨rfl, String.le_refl _⟩⟩

/-- a keyword is in front of keywords alone -/
def KeywordBehind (v w : Word) : Prop := v.kind = .keyword → w.kind = .keyword

end Word

/-! ## The words of a library -/

theorem Library.role_ne_keyword (lib : Library) (name : String) : lib.role name ≠ .keyword := by
  unfold role
  split <;> simp

theorem mem_filterMap_word?_iff : w ∈ names.filterMap lib.word? ↔ w.text ∈ names ∧ w.kind = lib.role w.text := by
  simp only [List.mem_filterMap, Library.word?, Word.ofText?_eq_some_iff]
  constructor
  · rintro ⟨name, hname, rfl, hkind⟩
    exact ⟨hname, hkind⟩
  · exact fun ⟨hname, hkind⟩ => ⟨w.text, hname, rfl, hkind⟩

theorem mem_keywordWords_iff : w ∈ keywordWords ↔ w.text ∈ keywords ∧ w.kind = .keyword := by
  simp only [keywordWords, List.mem_filterMap, Word.ofText?_eq_some_iff]
  constructor
  · rintro ⟨name, hname, rfl, hkind⟩
    exact ⟨hname, hkind⟩
  · exact fun ⟨hname, hkind⟩ => ⟨w.text, hname, rfl, hkind⟩

/-- a word of the lexicon is a name of the library or a keyword -/
theorem mem_lexicon_iff : w ∈ lib.lexicon ↔
    w.text ∈ lib.words ∧ w.kind = lib.role w.text ∨ w.text ∈ keywords ∧ w.kind = .keyword := by
  rw [Library.lexicon, Library.wordList, (Sorting.perm_sort _ _).mem_iff, List.mem_append, mem_filterMap_word?_iff,
    mem_keywordWords_iff]

/-- **The sorted words**: keywords are behind other words of the same letters, since they are listed last. -/
theorem pairwise_wordList (lib : Library) (names : List String) :
    (lib.wordList names).Pairwise (Sorting.InOrder Word.precedes Word.KeywordBehind) := by
  refine Sorting.pairwise_sort Word.precedes_total Word.precedes_trans (List.pairwise_append.2 ⟨?_, ?_, ?_⟩)
  · refine List.pairwise_of_forall_mem_list fun v hv w _ hkeyword => ?_
    exact absurd ((mem_filterMap_word?_iff.1 hv).2.symm.trans hkeyword) (lib.role_ne_keyword v.text)
  · exact List.pairwise_of_forall_mem_list fun v _ w hw _ => (mem_keywordWords_iff.1 hw).2
  · exact fun v _ w hw _ => (mem_keywordWords_iff.1 hw).2

/-- two words of a library with the same letters are the same, unless one of them is a keyword and the other is not -/
theorem eq_of_text_eq (hv : v ∈ lib.lexicon) (hw : w ∈ lib.lexicon) (htext : v.text = w.text)
    (hkind : v.kind = .keyword ↔ w.kind = .keyword) : v = w := by
  refine Word.ext_text htext ?_
  rcases mem_lexicon_iff.1 hv with ⟨-, hv⟩ | ⟨-, hv⟩
  · rcases mem_lexicon_iff.1 hw with ⟨-, hw⟩ | ⟨-, hw⟩
    · rw [hv, hw, htext]
    · exact (hkind.2 hw).trans hw.symm
  · exact hv.trans (hkind.1 hv).symm

/-- the words among the names of functions and constants in some order, a name of both twice -/
def Library.HasNames (lib : Library) (names : List String) : Prop := names.Perm lib.words

/-- **The sorted list** is the same for every order of the names. -/
theorem wordList_eq_lexicon (hnames : lib.HasNames names) : lib.wordList names = lib.lexicon := by
  have hperm : (lib.wordList names).Perm lib.lexicon := by
    refine (Sorting.perm_sort _ _).trans (.trans ?_ (Sorting.perm_sort _ _).symm)
    exact (hnames.filterMap _).append_right _
  refine List.Perm.eq_of_pairwise ?_ (pairwise_wordList lib names) (pairwise_wordList lib lib.words) hperm
  intro v w hv hw hvw hwv
  refine eq_of_text_eq (hperm.mem_iff.1 hv) hw (Word.precedes_antisymm_iff.1 ⟨hvw.1, hwv.1⟩) ?_
  exact ⟨hvw.2 hwv.1, hwv.2 hvw.1⟩

/-! ## The word that is read -/

/-- beginnings of one text are as long in characters as they are in bytes -/
theorem length_le_of_utf8Len_le {cs ds : List Char} (hcs : cs <+: text) (hds : ds <+: text)
    (h : utf8Len cs ≤ utf8Len ds) : cs.length ≤ ds.length := by
  by_contra hlength
  obtain ⟨rest, rfl⟩ := List.prefix_of_prefix_length_le hds hcs (by omega)
  rw [String.utf8Len_append] at h
  have hrest : rest = [] := String.utf8Len_eq_zero.1 (by omega)
  simp [hrest] at hlength

/-- the word that is read where the text begins: the longest one, a keyword only if no function or constant has the
same letters -/
structure Library.Reads (lib : Library) (text : List Char) (w : Word) : Prop where
  mem : w ∈ lib.lexicon
  begins : w.letters <+: text
  longest : ∀ v ∈ lib.lexicon, v.letters <+: text → v.letters.length ≤ w.letters.length
  front : w.kind = .keyword → ∀ v ∈ lib.lexicon, v.text = w.text → v.kind = .keyword

namespace Library.Reads

theorem unique (hv : lib.Reads text v) (hw : lib.Reads text w) : v = w := by
  have hlength : v.letters.length = w.letters.length :=
    Nat.le_antisymm (hw.longest v hv.mem hv.begins) (hv.longest w hw.mem hw.begins)
  have htext : v.text = w.text :=
    Word.text_inj.2 ((List.prefix_of_prefix_length_le hv.begins hw.begins hlength.le).eq_of_length hlength)
  refine eq_of_text_eq hv.mem hw.mem htext ⟨fun hkeyword => ?_, fun hkeyword => ?_⟩
  · exact hv.front hkeyword w hw.mem htext.symm
  · exact hw.front hkeyword v hv.mem htext

/-- the first word that the text begins with has all others behind it, so it is no shorter than they are -/
theorem of_firstWord? (h : firstWord? text lib.lexicon = some w) : lib.Reads text w := by
  obtain ⟨hbegins, before, behind, hwords, hbefore⟩ := firstWord?_eq_some_iff.1 h
  have hsorted := pairwise_wordList lib lib.words
  rw [← lexicon, hwords] at hsorted
  have hbehind := (List.pairwise_cons.1 (List.pairwise_append.1 hsorted).2.1).1
  have hrest : ∀ v ∈ lib.lexicon, v.letters <+: text → v = w ∨ v ∈ behind := by
    intro v hv hv'
    rw [hwords, List.mem_append, List.mem_cons] at hv
    exact hv.resolve_left fun hv => hbefore v hv hv'
  refine ⟨mem_of_firstWord? h, hbegins, fun v hv hv' => ?_, fun hkeyword v hv htext => ?_⟩
  · rcases hrest v hv hv' with rfl | hv
    · exact Nat.le_refl _
    · exact length_le_of_utf8Len_le hv' hbegins (Word.utf8Len_le_of_precedes (hbehind v hv).1)
  · rcases hrest v hv (Word.text_inj.1 htext ▸ hbegins) with rfl | hv
    · exact hkeyword
    · exact (hbehind v hv).2 (Word.precedes_antisymm_iff.2 htext).1 hkeyword

end Library.Reads

/-- **The first word** of the sorted list that a text begins with is the longest one, in its first role. -/
theorem firstWord?_lexicon_iff : firstWord? text lib.lexicon = some w ↔ lib.Reads text w := by
  refine ⟨.of_firstWord?, fun h => ?_⟩
  cases hfirst : firstWord? text lib.lexicon with
  | none => exact absurd h.begins (firstWord?_eq_none_iff.1 hfirst w h.mem)
  | some v => rw [(Library.Reads.of_firstWord? hfirst).unique h]

end ComplexFormula

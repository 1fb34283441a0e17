/-
Which word is read at a letter. A token is what the scan reads where it begins, so a token that begins with a letter is
the longest word of the library or of the grammar that stands there: a function if the library has one of that name, or
else a constant, or else a keyword. Where no word stands, the letter is an identifier together with the digits behind
it. Words have more than one byte, and what begins with a letter and has one character only has one byte.

- `ReadAt`: the token is what is read where it begins; `readAt_of_scan`: so are all tokens of a scan.
- `standsAt_iff`: what stands in a source where a piece of it begins.
- `Library.HasWord`, `hasWord_iff`: the words, in whatever order they are tried.
- `Library.Reads.kind_eq`: the role of a word that has several.
- `Library.TakesWord`, `Library.TakesIdentifier`: the longest word, and the identifier where there is none.
- `scan_longest`: **the longest word** is read at every letter.
-/
import ComplexFormula.Proofs.Library.Store
import ComplexFormula.Proofs.Scanning.Faults
import ComplexFormula.Proofs.Scanning.Lexicon
import ComplexFormula.Proofs.Scanning.Lossless

namespace ComplexFormula

open Decimal (isDigit)
open String (utf8Len)

/-! ## Tokens in their places -/

/-- the token is what is read at its place in the text -/
def ReadAt (words : List Word) (text : List Char) (t : Token) : Prop :=
  ∃ front c part behind, text = front ++ c :: (part ++ behind) ∧ t.start = utf8Len front ∧
    extent? words c (part ++ behind) = some (t.kind, part.length + 1) ∧ t.text = .ofList (c :: part)

/-- **One token** more is read at its place too. -/
theorem readAt_of_tokenAt {words : List Word} {front part behind : List Char} {c : Char} {kind : Token.Kind}
    {t : Token} (hextent : extent? words c (part ++ behind) = some (kind, part.length + 1))
    (h : tokenAt kind (utf8Len front) (.ofList (c :: part)) = .ok t) :
    ReadAt words (front ++ c :: (part ++ behind)) t ∧ t.stop = utf8Len (front ++ c :: part) := by
  obtain ⟨-, rfl⟩ := tokenAt_eq_ok_iff.1 h
  refine ⟨⟨front, c, part, behind, rfl, rfl, hextent, rfl⟩, ?_⟩
  rw [String.utf8Len_append, String.utf8ByteSize_ofList]

/-- **The rest of a text** is read in places that count from the beginning of the text. -/
theorem readAt_of_scanFrom {words : List Word} {front cs : List Char} {pos : Nat} {done ts : List Token}
    (hpos : pos = utf8Len front) (hdone : ∀ t ∈ done, ReadAt words (front ++ cs) t)
    (h : scanFrom words pos done cs = .ok ts) : ∀ t ∈ ts, ReadAt words (front ++ cs) t := by
  fun_induction scanFrom words pos done cs generalizing front with
  | case1 pos done =>
    obtain rfl := Except.ok.inj h
    exact fun t ht => hdone t (List.mem_reverse.1 ht)
  | case2 pos done c cs hc ih =>
    have hbehind := @ih (front ++ [c]) (by simp [hpos, String.utf8Len_append])
    rw [List.append_assoc] at hbehind
    exact hbehind hdone h
  | case3 | case4 => cases h
  | case5 pos done c cs hc kind size hextent t ht ih =>
    obtain ⟨part, behind, rfl, rfl⟩ := exists_cut hextent
    rw [List.take_succ_cons, List.take_left, hpos] at ht
    rw [List.drop_succ_cons, List.drop_left] at ih h
    obtain ⟨hread, hstop⟩ := readAt_of_tokenAt hextent ht
    have hbehind := ih hstop
    rw [List.append_assoc, List.cons_append] at hbehind
    exact hbehind (List.forall_mem_cons.2 ⟨hread, hdone⟩) h

/-- every token of a scan is what is read at its place -/
theorem readAt_of_scan {lib : Library} {source : String} {ts : List Token} (h : scan lib source = .ok ts) :
    ∀ t ∈ ts, ReadAt lib.lexicon source.toList t := by
  have hread := @readAt_of_scanFrom lib.lexicon [] source.toList 0 [] ts rfl (List.forall_mem_nil _) h
  rwa [List.nil_append] at hread

/-- a piece of the source at the byte where the rest of it begins is a beginning of that rest -/
theorem standsAt_iff {source text : String} {front rest : List Char} (hsource : source.toList = front ++ rest) :
    StandsAt source (utf8Len front) text ↔ text.toList <+: rest := by
  constructor
  · rintro ⟨before, behind, rfl, hbefore⟩
    rw [String.toList_append, String.toList_append, List.append_assoc] at hsource
    rw [← String.utf8Len_toList] at hbefore
    have hfront : front <+: front ++ rest := List.prefix_append front rest
    have hother : before.toList <+: front ++ rest := hsource ▸ List.prefix_append _ _
    have hlength : before.toList.length = front.length :=
      Nat.le_antisymm (length_le_of_utf8Len_le hother hfront hbefore.le)
        (length_le_of_utf8Len_le hfront hother hbefore.ge)
    exact ⟨behind.toList, (List.append_inj hsource hlength).2⟩
  · rintro ⟨behind, rfl⟩
    have hstands := standsAt_utf8Len front text.toList behind
    rwa [← hsource, String.ofList_toList, String.ofList_toList] at hstands

/-! ## Words -/

namespace Library

/-- a name of more than one byte of a function or constant, or a keyword -/
def HasWord (lib : Library) (name : String) : Prop :=
  1 < name.utf8ByteSize ∧ (lib.isFunction name = true ∨ lib.isConstant name = true) ∨ name ∈ keywords

/-- what a word is read as: a function before a constant, and a constant before a keyword -/
def wordKind (lib : Library) (name : String) : Token.Kind :=
  if lib.isFunction name then .function else if lib.isConstant name then .constant else .keyword

variable {lib : Library} {name : String} {text : List Char} {w : Word}

theorem mem_names_iff : name ∈ lib.functions.names ++ lib.constants.names ↔
    lib.isFunction name = true ∨ lib.isConstant name = true := by
  rw [List.mem_append, Table.mem_names_iff, Table.mem_names_iff, ← Table.contains_iff, ← Table.contains_iff]
  rfl

theorem mem_words_iff : name ∈ lib.words ↔
    1 < name.utf8ByteSize ∧ (lib.isFunction name = true ∨ lib.isConstant name = true) := by
  rw [words, List.mem_filter, mem_names_iff, and_comm, isWord, decide_eq_true_iff]

theorem one_lt_of_mem_keywords (h : name ∈ keywords) : 1 < name.utf8ByteSize := by
  have hall : ∀ name ∈ keywords, 1 < name.utf8ByteSize := by decide
  exact hall name h

theorem HasWord.one_lt (h : lib.HasWord name) : 1 < name.utf8ByteSize := h.elim And.left one_lt_of_mem_keywords

/-- a text of more than one byte is that of a word of any kind -/
theorem exists_word (hsize : 1 < name.utf8ByteSize) (kind : Token.Kind) : ∃ w : Word, w.text = name ∧ w.kind = kind := by
  have hne : name.toList ≠ [] := by
    intro hnil
    rw [← String.utf8Len_toList, hnil] at hsize
    cases hsize
  exact ⟨⟨name.toList, kind, hne⟩, String.ofList_toList, rfl⟩

/-- the words are those of the lexicon -/
theorem hasWord_iff : lib.HasWord name ↔ ∃ w ∈ lib.lexicon, w.text = name := by
  constructor
  · intro h
    rcases id h with hword | hkeyword
    · obtain ⟨w, rfl, hkind⟩ := exists_word h.one_lt (lib.role name)
      exact ⟨w, mem_lexicon_iff.2 (.inl ⟨mem_words_iff.2 hword, hkind⟩), rfl⟩
    · obtain ⟨w, rfl, hkind⟩ := exists_word h.one_lt .keyword
      exact ⟨w, mem_lexicon_iff.2 (.inr ⟨hkeyword, hkind⟩), rfl⟩
  · rintro ⟨w, hw, rfl⟩
    exact (mem_lexicon_iff.1 hw).imp (fun hword => mem_words_iff.1 hword.1) And.left

/-- **The role of a word** that is read is the first one that its letters have. -/
theorem Reads.kind_eq (h : lib.Reads text w) : w.kind = lib.wordKind w.text := by
  rcases mem_lexicon_iff.1 h.mem with ⟨hname, hkind⟩ | ⟨hkeyword, hkind⟩
  · rw [hkind, role, wordKind]
    by_cases hfunction : lib.isFunction w.text = true
    · simp only [hfunction, if_true]
    · have hconstant := (mem_words_iff.1 hname).2.resolve_left hfunction
      simp only [hfunction, hconstant, Bool.false_eq_true, if_false, if_true]
  · -- a function or constant of the same letters would be in front of the keyword
    have hnone : ¬(lib.isFunction w.text = true ∨ lib.isConstant w.text = true) := by
      intro hlibrary
      obtain ⟨v, htext, hrole⟩ := exists_word (one_lt_of_mem_keywords hkeyword) (lib.role w.text)
      have hname : v.text ∈ lib.words := htext ▸ mem_words_iff.2 ⟨one_lt_of_mem_keywords hkeyword, hlibrary⟩
      have hmem : v ∈ lib.lexicon := mem_lexicon_iff.2 (.inl ⟨hname, htext ▸ hrole⟩)
      exact lib.role_ne_keyword w.text (hrole.symm.trans (h.front hkind v hmem htext))
    rw [not_or] at hnone
    simp only [hkind, wordKind, hnone.1, hnone.2, Bool.false_eq_true, if_false]

/-! ## Tokens -/

/-- the token is the longest word that stands in the source at its place -/
structure TakesWord (lib : Library) (source : String) (t : Token) : Prop where
  word : lib.HasWord t.text
  stands : StandsAt source t.start t.text
  longest : ∀ w, lib.HasWord w → StandsAt source t.start w → w.utf8ByteSize ≤ t.text.utf8ByteSize
  kind : t.kind = lib.wordKind t.text

/-- no word stands at the place of the token, which is a letter with all digits that follow -/
structure TakesIdentifier (lib : Library) (source : String) (t : Token) : Prop where
  noWord : ∀ w, lib.HasWord w → ¬StandsAt source t.start w
  kind : t.kind = .identifier
  stands : StandsAt source t.start t.text
  text : ∃ c ds, t.text = .ofList (c :: ds) ∧ isLetter c = true ∧ ∀ d ∈ ds, isDigit d = true
  maximal : ∀ d, isDigit d = true → ¬StandsAt source t.start (t.text.push d)

end Library

section

variable {lib : Library} {source : String} {front cs part behind : List Char} {c : Char} {t : Token}

/-- a word that is found where the token begins -/
theorem takesWord_of_reads {w : Word} (hsource : source.toList = front ++ cs) (hstart : t.start = utf8Len front)
    (hreads : lib.Reads cs w) (hkind : t.kind = w.kind) (htext : t.text = w.text) : lib.TakesWord source t := by
  have hstands : ∀ {v : Word}, StandsAt source t.start v.text ↔ v.letters <+: cs := by
    intro v
    rw [hstart, standsAt_iff hsource, v.toList_text]
  constructor
  case word => exact Library.hasWord_iff.2 ⟨w, hreads.mem, htext.symm⟩
  case stands => exact htext ▸ hstands.2 hreads.begins
  case longest =>
    intro name hname hname'
    obtain ⟨v, hv, rfl⟩ := Library.hasWord_iff.1 hname
    have hbegins := hstands.1 hname'
    obtain ⟨rest, hrest⟩ := List.prefix_of_prefix_length_le hbegins hreads.begins (hreads.longest v hv hbegins)
    rw [htext, ← String.utf8Len_toList, ← String.utf8Len_toList, v.toList_text, w.toList_text, ← hrest,
      String.utf8Len_append]
    exact Nat.le_add_right _ _
  case kind => rw [hkind, htext, hreads.kind_eq]

/-- the identifier where no word is found -/
theorem takesIdentifier_of_none (hsource : source.toList = front ++ c :: cs) (hstart : t.start = utf8Len front)
    (hc : isLetter c = true) (hnone : firstWord? (c :: cs) lib.lexicon = none) (hkind : t.kind = .identifier)
    (htext : t.text = .ofList (c :: cs.takeWhile isDigit)) : lib.TakesIdentifier source t := by
  constructor
  case noWord =>
    intro name hname hstands
    obtain ⟨v, hv, rfl⟩ := Library.hasWord_iff.1 hname
    rw [hstart, standsAt_iff hsource, v.toList_text] at hstands
    exact firstWord?_eq_none_iff.1 hnone v hv hstands
  case kind => exact hkind
  case stands =>
    rw [hstart, standsAt_iff hsource, htext, String.toList_ofList, List.prefix_cons_inj]
    exact List.takeWhile_prefix _
  case text => exact ⟨c, _, htext, hc, fun d hd => List.mem_takeWhile_imp hd⟩
  case maximal =>
    intro d hd hstands
    rw [hstart, standsAt_iff hsource, String.toList_push, htext, String.toList_ofList, List.cons_append,
      List.prefix_cons_inj] at hstands
    obtain ⟨rest, hrest⟩ := hstands
    -- then the run of digits would not have ended there
    have hdigits : ∀ x ∈ cs.takeWhile isDigit, isDigit x = true := fun x hx => List.mem_takeWhile_imp hx
    have hlonger : cs.takeWhile isDigit = cs.takeWhile isDigit ++ d :: rest.takeWhile isDigit := by
      conv_lhs => rw [← hrest, List.append_assoc, List.takeWhile_append_of_pos hdigits, List.singleton_append,
        List.takeWhile_cons_of_pos hd]
    simp at hlonger

/-- a token at a letter is the longest word there, or the identifier where there is none -/
theorem takes_of_isLetter (hsource : source.toList = front ++ c :: (part ++ behind)) (hstart : t.start = utf8Len front)
    (hc : isLetter c = true) (hextent : extent? lib.lexicon c (part ++ behind) = some (t.kind, part.length + 1))
    (htext : t.text = .ofList (c :: part)) : lib.TakesWord source t ∨ lib.TakesIdentifier source t := by
  rw [extent_of_isLetter hc] at hextent
  have hextent := Option.some.inj hextent
  have hpart : c :: part <+: c :: (part ++ behind) := (List.prefix_cons_inj c).2 (List.prefix_append part behind)
  cases hfirst : firstWord? (c :: (part ++ behind)) lib.lexicon with
  | some w =>
    rw [wordExtent_of_some hfirst] at hextent
    obtain ⟨hkind, hlength⟩ := Prod.mk.inj hextent
    have hreads := Library.Reads.of_firstWord? hfirst
    have hletters : w.letters = c :: part :=
      (List.prefix_of_prefix_length_le hreads.begins hpart hlength.le).eq_of_length hlength
    exact .inl (takesWord_of_reads hsource hstart hreads hkind.symm (by rw [htext, ← hletters]; rfl))
  | none =>
    rw [wordExtent_of_none hfirst] at hextent
    obtain ⟨hkind, hlength⟩ := Prod.mk.inj hextent
    have hdigits : (part ++ behind).takeWhile isDigit = part := takeWhile_of_length (by omega)
    exact .inr (takesIdentifier_of_none hsource hstart hc hfirst hkind.symm (by rw [htext, hdigits]))

/-- names and keywords begin with a letter -/
theorem isLetter_of_isNameKind {words : List Word} {kind : Token.Kind} {size : Nat}
    (hextent : extent? words c cs = some (kind, size)) (hkind : isNameKind kind = true) : isLetter c = true := by
  by_contra hletter
  by_cases hmantissa : isMantissa c = true
  · rw [extent_of_isMantissa hmantissa] at hextent
    obtain ⟨rfl, -⟩ := Prod.mk.inj (Option.some.inj hextent)
    cases hkind
  · rw [extent_of_symbol hmantissa hletter] at hextent
    rw [(isNameKind_of_symbolExtent hextent).1] at hkind
    cases hkind

/-- a letter has one byte -/
theorem utf8Size_of_isLetter (hc : isLetter c = true) : c.utf8Size = 1 := by
  rw [Char.utf8Size_eq_one_iff]
  simp only [isLetter, Bool.or_eq_true, Bool.and_eq_true, decide_eq_true_eq, Char.le_def] at hc
  rcases hc with hc | hc <;> exact UInt32.le_trans hc.2 (by decide)

/-- a word at a letter has more than one character, since it has more than one byte -/
theorem Library.TakesWord.one_lt_length (h : lib.TakesWord source t) (hsource : source.toList = front ++ c :: cs)
    (hstart : t.start = utf8Len front) (hc : isLetter c = true) : 1 < t.text.length := by
  have hsize := h.word.one_lt
  have hbegins : t.text.toList <+: c :: cs := by
    rw [← standsAt_iff hsource, ← hstart]
    exact h.stands
  rw [← String.length_toList]
  rw [← String.utf8Len_toList] at hsize
  match htext : t.text.toList with
  | [] => simp [htext] at hsize
  | [d] =>
    rw [htext] at hbegins hsize
    obtain ⟨rfl, -⟩ := List.cons_prefix_cons.1 hbegins
    simp [utf8Size_of_isLetter hc] at hsize
  | _ :: _ :: _ => simp

/-- a letter begins at the byte of the source -/
def LetterAt (source : String) (pos : Nat) : Prop := ∃ c, isLetter c = true ∧ StandsAt source pos (.ofList [c])

theorem letterAt_iff (hsource : source.toList = front ++ c :: cs) :
    LetterAt source (utf8Len front) ↔ isLetter c = true := by
  simp [LetterAt, standsAt_iff hsource, List.cons_prefix_cons]

end

/-- **The longest word** is read at every letter. Where a token begins with a letter and some word stands there, the
token is the longest of these words and has its first role; where none does, it is the letter with all digits that
follow, an identifier. All names and keywords begin so, and a function or constant is never a single character. -/
theorem scan_longest {lib : Library} {source : String} {ts : List Token} (h : scan lib source = .ok ts) :
    ∀ t ∈ ts,
      (LetterAt source t.start →
        ((∃ w, lib.HasWord w ∧ StandsAt source t.start w) → lib.TakesWord source t) ∧
          ((∀ w, lib.HasWord w → ¬StandsAt source t.start w) → lib.TakesIdentifier source t)) ∧
      (isNameKind t.kind = true → LetterAt source t.start) ∧
      (t.kind = .function ∨ t.kind = .constant → 1 < t.text.length) := by
  intro t ht
  obtain ⟨front, c, part, behind, hsource, hstart, hextent, htext⟩ := readAt_of_scan h t ht
  have htakes := fun hc => takes_of_isLetter hsource hstart hc hextent htext
  refine ⟨?_, ?_, ?_⟩
  · rw [hstart, letterAt_iff hsource, ← hstart]
    intro hc
    rcases htakes hc with hword | hidentifier
    · exact ⟨fun _ => hword, fun hnone => absurd hword.stands (hnone _ hword.word)⟩
    · exact ⟨fun ⟨w, hw, hstands⟩ => absurd hstands (hidentifier.noWord w hw), fun _ => hidentifier⟩
  · intro hkind
    rw [hstart, letterAt_iff hsource]
    exact isLetter_of_isNameKind hextent hkind
  · intro hkind
    have hc : isLetter c = true := isLetter_of_isNameKind hextent (by rcases hkind with hk | hk <;> rw [hk] <;> rfl)
    rcases htakes hc with hword | hidentifier
    · exact hword.one_lt_length hsource hstart hc
    · rw [hidentifier.kind] at hkind
      rcases hkind with hk | hk <;> cases hk

/-- two functions of which one begins the other, a constant of the same name as one, and a constant of one letter -/
def nestedLibrary : Library :=
  Library.empty.registerAll [.function (.unary "sin" fun z => z), .function (.unary "sinh" fun z => z),
    .constant "sinh" .unit, .constant "q" .unit]

/-- the longer function is read, and the constant of one letter is not -/
theorem scan_longest_sinh : ∃ t u, scan nestedLibrary "sinhq1" = .ok [t, u] ∧
    t.text = "sinh" ∧ t.kind = .function ∧ nestedLibrary.TakesWord "sinhq1" t ∧
    u.text = "q1" ∧ nestedLibrary.TakesIdentifier "sinhq1" u := by
  have hscan : scan nestedLibrary "sinhq1" = .ok [⟨.function, "sinh", 0, 4⟩, ⟨.identifier, "q1", 4, 6⟩] := by
    decide +kernel
  have hall := scan_longest hscan
  simp only [List.forall_mem_cons, List.not_mem_nil, false_implies, implies_true, and_true] at hall
  obtain ⟨⟨hfirst, hfirstLetter, -⟩, hsecond, hsecondLetter, -⟩ := hall
  refine ⟨_, _, hscan, rfl, rfl, (hfirst (hfirstLetter rfl)).1 ?_, rfl, (hsecond (hsecondLetter rfl)).2 ?_⟩
  · exact ⟨"sin", .inl (by decide), "", "hq1", by decide, rfl⟩
  · intro w hw hstands
    have hkind := ((hsecond (hsecondLetter rfl)).1 ⟨w, hw, hstands⟩).kind
    have hkeyword : nestedLibrary.wordKind "q1" = .keyword := by decide
    cases hkind.trans hkeyword

end ComplexFormula

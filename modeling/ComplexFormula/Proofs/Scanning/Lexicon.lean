/-
Scanning with the words of a library: every name that a scan finds is legible, and so are the keywords if the names of
the library are plain.

- `Library.PlainNames`: ASCII letters, digits and `_`, and no keyword.
- `Library.plainNames_extended`, `Library.plainNames_basic`: the two libraries that come ready made.
- `legible_keyword`: the keywords.
- `Spells.lexeme_form`: the names and the numbers of a text that was scanned.
-/
import ComplexFormula.Library.Standard
import ComplexFormula.Proofs.Scanning.Cutting
import ComplexFormula.Proofs.Scanning.WordOrder

namespace ComplexFormula

/-! ## Plain names -/

/-- ASCII letters, digits and `_` alone, and no keyword -/
def PlainName (name : String) : Prop := (∀ c ∈ name.toList, isNameChar c = true) ∧ name ∉ keywords

-- the characters of the name are gone through, never all characters there are
instance (name : String) : Decidable (PlainName name) := @instDecidableAnd _ _ (List.decidableBAll _ _) inferInstance

theorem Table.mem_names_insert {α : Type} {t : Table α} {name other : String} {x : α}
    (h : other ∈ (t.insert name x).names) : other = name ∨ other ∈ t.names := by
  obtain ⟨e, he, rfl⟩ := List.mem_map.1 h
  rcases mem_place he with rfl | he
  · exact .inl rfl
  · exact .inr (List.mem_map_of_mem he)

namespace Library

/-- the names of functions and constants are plain -/
def PlainNames (lib : Library) : Prop := ∀ name ∈ lib.functions.names ++ lib.constants.names, PlainName name

instance (lib : Library) : Decidable lib.PlainNames := inferInstanceAs (Decidable (∀ name ∈ _, _))

theorem PlainNames.registerOperation {lib : Library} (h : lib.PlainNames) (p : Operation) :
    (lib.registerOperation p).PlainNames := h

theorem PlainNames.registerFunction {lib : Library} (h : lib.PlainNames) {p : Operation} (hp : PlainName p.name) :
    (lib.registerFunction p).PlainNames := by
  intro name hname
  rcases List.mem_append.1 hname with hname | hname
  · rcases Table.mem_names_insert hname with rfl | hname
    · exact hp
    · exact h name (List.mem_append_left _ hname)
  · exact h name (List.mem_append_right _ hname)

theorem PlainNames.registerFunctions {lib : Library} (h : lib.PlainNames) {ps : List Operation}
    (hps : ∀ p ∈ ps, PlainName p.name) : (ps.foldl Library.registerFunction lib).PlainNames := by
  induction ps generalizing lib with
  | nil => exact h
  | cons p ps ih =>
    exact ih (h.registerFunction (hps p List.mem_cons_self)) fun q hq => hps q (List.mem_cons_of_mem p hq)

theorem plainNames_core : core.PlainNames := by decide +kernel

/-- the basic library has plain names -/
theorem plainNames_basic : basic.PlainNames := plainNames_core.registerOperation absolute

/-- the extended library has plain names -/
theorem plainNames_extended (entropy : UInt64) : (extended entropy).PlainNames := by
  apply plainNames_core.registerFunctions
  simp only [functionEntries, List.forall_mem_cons, Operation.unary, Operation.binary, absolute, List.not_mem_nil,
    false_implies, implies_true, and_true]
  decide +kernel

end Library

/-! ## The lexicon -/

variable {lib : Library}

theorem mem_names_of_mem_words {name : String} (h : name ∈ lib.words) :
    name ∈ lib.functions.names ++ lib.constants.names := (List.mem_filter.1 h).1

/-- what holds of the characters of all names and keywords holds of the letters of all words -/
theorem letters_of_mem_lexicon {p : Char → Prop} {w : Word}
    (hnames : ∀ name ∈ lib.functions.names ++ lib.constants.names, ∀ c ∈ name.toList, p c)
    (hkeywords : ∀ name ∈ keywords, ∀ c ∈ name.toList, p c) (hw : w ∈ lib.lexicon) : ∀ c ∈ w.letters, p c := by
  rw [← w.toList_text]
  rcases mem_lexicon_iff.1 hw with ⟨hname, -⟩ | ⟨hkeyword, -⟩
  · exact hnames w.text (mem_names_of_mem_words hname)
  · exact hkeywords w.text hkeyword

theorem isNameChar_of_mem_keywords {name : String} (h : name ∈ keywords) : ∀ c ∈ name.toList, isNameChar c = true := by
  have hall : ∀ name ∈ keywords, name.toList.all isNameChar = true := by decide
  exact List.all_eq_true.1 (hall name h)

theorem plain_lexicon (h : lib.PlainNames) : Plain lib.lexicon :=
  fun _ hw => letters_of_mem_lexicon (fun name hname => (h name hname).1) (fun _ => isNameChar_of_mem_keywords) hw

theorem kind_of_mem_lexicon {w : Word} (h : w ∈ lib.lexicon) :
    w.kind = .function ∨ w.kind = .constant ∨ w.kind = .keyword := by
  rcases mem_lexicon_iff.1 h with ⟨-, hkind⟩ | ⟨-, hkind⟩
  · rw [hkind, Library.role]
    split
    · exact .inl rfl
    · exact .inr (.inl rfl)
  · exact .inr (.inr hkind)

/-! ## Keywords -/

/-- **The keywords** are legible: no name of the library is one of them. -/
theorem legible_keyword (h : lib.PlainNames) {name : String} (hname : name ∈ keywords) :
    Legible lib.lexicon ⟨.keyword, name⟩ := by
  obtain ⟨c, cs, htext, hc⟩ : ∃ c cs, name.toList = c :: cs ∧ isLetter c = true := by
    simp only [keywords, List.mem_cons, List.not_mem_nil, or_false] at hname
    rcases hname with rfl | rfl | rfl | rfl <;> exact ⟨_, _, rfl, rfl⟩
  let w : Word := ⟨c :: cs, .keyword, List.cons_ne_nil c cs⟩
  obtain rfl : w.text = name := String.toList_inj.1 (w.toList_text.trans htext.symm)
  have hreads : lib.Reads (c :: cs) w := by
    refine ⟨mem_lexicon_iff.2 (.inr ⟨hname, rfl⟩), List.prefix_refl _, fun v _ hbegins => hbegins.length_le, ?_⟩
    intro _ v hv hsame
    rcases mem_lexicon_iff.1 hv with ⟨hv, -⟩ | ⟨-, hkind⟩
    · exact absurd (hsame ▸ hname) (h v.text (mem_names_of_mem_words hv)).2
    · exact hkind
  exact ⟨c, cs, htext, hc, wordExtent_of_some (firstWord?_lexicon_iff.2 hreads)⟩

/-! ## Names and numbers of a text -/

/-- the kinds of token that names have -/
def isNameKind : Token.Kind → Bool
  | .identifier | .constant | .function | .keyword => true
  | _ => false

theorem isNameKind_of_wordExtent {c : Char} {cs : List Char} {kind : Token.Kind} {size : Nat}
    (h : wordExtent lib.lexicon c cs = (kind, size)) : isNameKind kind = true := by
  cases hfirst : firstWord? (c :: cs) lib.lexicon with
  | some w =>
    rw [wordExtent_of_some hfirst] at h
    obtain ⟨rfl, -⟩ := Prod.mk.inj h
    rcases kind_of_mem_lexicon (mem_of_firstWord? hfirst) with hkind | hkind | hkind <;> rw [hkind] <;> rfl
  | none =>
    rw [wordExtent_of_none hfirst] at h
    obtain ⟨rfl, -⟩ := Prod.mk.inj h
    rfl

theorem isNameKind_of_symbolExtent {c : Char} {cs : List Char} {kind : Token.Kind} {size : Nat}
    (h : symbolExtent? c cs = some (kind, size)) : isNameKind kind = false ∧ kind ≠ .number := by
  unfold symbolExtent? at h
  split at h <;> simp only [Option.some.injEq, reduceCtorEq] at h <;> (try split at h) <;>
    obtain ⟨rfl, -⟩ := Prod.mk.inj h <;> exact ⟨rfl, by simp⟩

/-- every name of a text that was scanned is legible, and every number begins with a digit or a point -/
theorem Spells.lexeme_form {cs : List Char} {ls : List Lexeme} (hs : Spells lib.lexicon cs ls) :
    ∀ l ∈ ls, (isNameKind l.kind = true → Legible lib.lexicon l) ∧
      (l.kind = .number → ∃ c ∈ l.text.toList.head?, isMantissa c = true) := by
  induction hs with
  | nil => simp
  | blank _ _ ih => exact ih
  | @lexeme c part behind kind ls _ hextent _ _ ih =>
    refine List.forall_mem_cons.2 ⟨?_, ih⟩
    by_cases hmantissa : isMantissa c = true
    · rw [extent_of_isMantissa hmantissa] at hextent
      obtain ⟨rfl, -⟩ := Prod.mk.inj (Option.some.inj hextent)
      exact ⟨fun hk => (by cases hk), fun _ => ⟨c, by simp, hmantissa⟩⟩
    · by_cases hletter : isLetter c = true
      · rw [extent_of_isLetter hletter] at hextent
        have hword := Option.some.inj hextent
        refine ⟨fun _ => legible_of_wordExtent hletter hword, ?_⟩
        rintro rfl
        cases isNameKind_of_wordExtent hword
      · rw [extent_of_symbol hmantissa hletter] at hextent
        obtain ⟨hname, hnumber⟩ := isNameKind_of_symbolExtent hextent
        exact ⟨fun hk => absurd hk (by simp [hname]), fun hk => absurd hk hnumber⟩

end ComplexFormula

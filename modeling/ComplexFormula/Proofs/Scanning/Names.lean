/-
Names after a scan and the hooks. What kind of token a name becomes depends on its letters alone, not on the place
where it stands; that holds with the hook of the imaginary unit too.

- `nameKind`: how a scan takes a name, wherever it stands.
- `Hook.kindAfter`, `kindOfName`: how the hooks leave it.
- `name_of_token`: **every name of a scan** has the kind of its letters.
-/
import ComplexFormula.Proofs.Scanning.Lexicon
import ComplexFormula.Token.Hook

namespace ComplexFormula

/-! ## Kinds of names -/

/-- the kind of token that the name makes where it stands alone -/
def nameKind (words : List Word) (name : String) : Token.Kind :=
  match name.toList with
  | c :: cs => (wordExtent words c cs).1
  | [] => .identifier

theorem Legible.nameKind_eq {words : List Word} {l : Lexeme} (h : Legible words l) :
    nameKind words l.text = l.kind := by
  obtain ⟨c, cs, htext, -, hextent⟩ := h
  simp only [nameKind, htext, hextent]

namespace Hook

/-- the hooks change nothing, or the imaginary unit alone -/
def AtMostImaginaryUnit (hooks : List Hook) : Prop := hooks = [] ∨ hooks = [imaginaryUnit]

/-- the kind of a lexeme after the hooks -/
def kindAfter (hooks : List Hook) (l : Lexeme) : Token.Kind := (patchAll hooks ⟨l.kind, l.text, 0, 0⟩).kind

/-- a lexeme after the hooks -/
def lexemeAfter (hooks : List Hook) (l : Lexeme) : Lexeme := ⟨kindAfter hooks l, l.text⟩

variable {hooks : List Hook}

theorem patch_imaginaryUnit (t : Token) :
    imaginaryUnit.patch t = t.withKind (if t.is .identifier "i" = true then .constant else t.kind) := by
  simp only [imaginaryUnit]
  by_cases h : t.is .identifier "i" = true
  · simp only [h, if_true]
  · simp only [h, Bool.false_eq_true, if_false]
    rfl

theorem lexeme_patchAll (h : AtMostImaginaryUnit hooks) (t : Token) :
    (patchAll hooks t).lexeme = lexemeAfter hooks t.lexeme := by
  rcases h with rfl | rfl
  · rfl
  · simp only [lexemeAfter, kindAfter, patchAll, List.foldl_cons, List.foldl_nil, patch_imaginaryUnit]
    rfl

/-- a hook leaves the kind, or it makes an identifier a constant -/
theorem kindAfter_cases (h : AtMostImaginaryUnit hooks) (l : Lexeme) :
    kindAfter hooks l = l.kind ∨ l.kind = .identifier ∧ kindAfter hooks l = .constant := by
  rcases h with rfl | rfl
  · exact .inl rfl
  · simp only [kindAfter, patchAll, List.foldl_cons, List.foldl_nil, patch_imaginaryUnit, Token.withKind]
    by_cases hi : (Token.mk l.kind l.text 0 0).is .identifier "i" = true
    · rw [if_pos hi]
      rw [Token.is, Bool.and_eq_true, beq_iff_eq] at hi
      exact .inr ⟨hi.1, rfl⟩
    · exact .inl (if_neg hi)

theorem lexemeAfter_of_ne (h : AtMostImaginaryUnit hooks) {l : Lexeme} (hl : l.kind ≠ .identifier) :
    lexemeAfter hooks l = l := by
  rcases kindAfter_cases h l with hk | ⟨hk, -⟩
  · simp only [lexemeAfter, hk]
  · exact absurd hk hl

end Hook

/-- the kind of a name after the scan and the hooks -/
def kindOfName (hooks : List Hook) (kind : String → Token.Kind) (name : String) : Token.Kind :=
  Hook.kindAfter hooks ⟨kind name, name⟩

/-! ## Tokens of a scan -/

variable {lib : Library} {hooks : List Hook} {source : String} {tokens : List Token}

theorem exists_lexeme_of_scanWith (hhooks : Hook.AtMostImaginaryUnit hooks)
    (h : scanWith lib hooks source = .ok tokens) {t : Token} (ht : t ∈ tokens) :
    ∃ l : Lexeme, t.lexeme = Hook.lexemeAfter hooks l ∧ (isNameKind l.kind = true → Legible lib.lexicon l) ∧
      (l.kind = .number → ∃ c ∈ l.text.toList.head?, isMantissa c = true) := by
  obtain ⟨raw, hraw, rfl⟩ := map_eq_ok_iff.1 h
  obtain ⟨us, rfl, hspells⟩ := spells_of_scanFrom hraw
  obtain ⟨u, hu, rfl⟩ := List.mem_map.1 ht
  refine ⟨u.lexeme, Hook.lexeme_patchAll hhooks u, hspells.lexeme_form _ ?_⟩
  exact List.mem_map_of_mem (by simpa using hu)

/-- the name is legible, and the scan and the hooks take it as an identifier or a constant again -/
theorem name_of_token (hhooks : Hook.AtMostImaginaryUnit hooks)
    (h : scanWith lib hooks source = .ok tokens) {t : Token} (ht : t ∈ tokens)
    (hk : t.kind = .identifier ∨ t.kind = .constant) :
    kindOfName hooks (nameKind lib.lexicon) t.text = t.kind ∧ nameKind lib.lexicon t.text ≠ .number ∧
      Legible lib.lexicon ⟨nameKind lib.lexicon t.text, t.text⟩ := by
  obtain ⟨l, hl, hlegible, -⟩ := exists_lexeme_of_scanWith hhooks h ht
  have hkind : t.kind = Hook.kindAfter hooks l := congrArg Lexeme.kind hl
  have htext : t.text = l.text := congrArg Lexeme.text hl
  have hbefore : l.kind = .identifier ∨ l.kind = .constant := by
    rcases Hook.kindAfter_cases hhooks l with hsame | ⟨hidentifier, -⟩
    · rwa [← hsame, ← hkind]
    · exact .inl hidentifier
  have hlegible := hlegible (by rcases hbefore with hb | hb <;> simp [hb, isNameKind])
  have hname : nameKind lib.lexicon t.text = l.kind := by rw [htext, hlegible.nameKind_eq]
  have hlexeme : (⟨nameKind lib.lexicon t.text, t.text⟩ : Lexeme) = l := by rw [hname, htext]
  refine ⟨?_, ?_, hlexeme ▸ hlegible⟩
  · rw [kindOfName, hlexeme, hkind]
  · rw [hname]
    rcases hbefore with hb | hb <;> simp [hb]

theorem legible_of_function (hhooks : Hook.AtMostImaginaryUnit hooks)
    (h : scanWith lib hooks source = .ok tokens) {t : Token} (ht : t ∈ tokens) (hk : t.kind = .function) :
    Legible lib.lexicon ⟨.function, t.text⟩ := by
  obtain ⟨l, hl, hlegible, -⟩ := exists_lexeme_of_scanWith hhooks h ht
  have hkind : Hook.kindAfter hooks l = .function := (congrArg Lexeme.kind hl).symm.trans hk
  have hbefore : l.kind = .function := by
    rcases Hook.kindAfter_cases hhooks l with hsame | ⟨-, hconstant⟩
    · rwa [← hsame]
    · simp [hconstant] at hkind
  have hlexeme : (⟨.function, t.text⟩ : Lexeme) = l := by
    rw [← hbefore, show t.text = l.text from congrArg Lexeme.text hl]
  exact hlexeme ▸ hlegible (by simp [hbefore, isNameKind])

end ComplexFormula

/-
A definition that was read from a text is read again from its printed text. The names of the printed text are those of
the tokens it was read from, so a scan takes each of them as it did before; the numbers are printed so that they are
read as themselves.

- `readsBack`: numbers are printed so that they are read again.
- `map_declaration`: the printed lexemes after the hooks.
- `cuts_of_isRead`, `reparses_of_isRead`: the text of a definition that was read, and its lexemes.
- `scanWith_text`: **round trip**.
-/
import ComplexFormula.Proofs.Decimal.Reading
import ComplexFormula.Proofs.Printing.Definitions
import ComplexFormula.Proofs.Scanning.Names

namespace ComplexFormula

open Grammar

/-! ## Numbers -/

/-- a finite number without a sign is printed as a token that is read as the number -/
theorem readsBack {x : Binary64} (hfinite : x.isFinite = true) (hsign : x.isNegative = false) : ReadsBack x := by
  obtain ⟨n, hn, htext, -⟩ := Decimal.exists_numeral_of_text hfinite hsign
  refine ⟨?_, ?_, Decimal.read?_text hfinite hsign⟩
  · obtain ⟨c, cs, hcs, -⟩ := hn.exists_cons
    rw [htext, hcs]
    exact List.cons_ne_nil c cs
  · intro c hc
    rw [htext] at hc
    rcases hn.isDigit_or_point hc with hdigit | rfl
    · rw [isMantissa, hdigit, Bool.true_or]
    · rfl

/-! ## Printed lexemes after the hooks -/

section

variable {hooks : List Hook} {kind : String → Token.Kind}

theorem map_intercalate {α β : Type} (f : α → β) (sep : List α) (xs : List (List α)) :
    (sep.intercalate xs).map f = (sep.map f).intercalate (xs.map (List.map f)) := by
  cases xs with
  | nil => rfl
  | cons x xs => simp [intercalate_cons, List.map_flatMap, List.flatMap_map]

theorem map_unaryLexemes (h : Hook.AtMostImaginaryUnit hooks) (op : String) (ls : List Lexeme) :
    (Expr.unaryLexemes op ls).map (Hook.lexemeAfter hooks) = Expr.unaryLexemes op (ls.map (Hook.lexemeAfter hooks)) := by
  have hfix := fun l hl => Hook.lexemeAfter_of_ne (l := l) h hl
  unfold Expr.unaryLexemes
  split <;> simp [hfix, Lexeme.openParen, Lexeme.closeParen, Lexeme.sign, Lexeme.bar]

theorem lexemeAfter_binaryLexeme (h : Hook.AtMostImaginaryUnit hooks) (op : String) :
    Hook.lexemeAfter hooks (Expr.binaryLexeme op) = Expr.binaryLexeme op := by
  refine Hook.lexemeAfter_of_ne h ?_
  unfold Expr.binaryLexeme
  split <;> simp [Lexeme.keyword, Lexeme.sign]

theorem map_lexemes (h : Hook.AtMostImaginaryUnit hooks) (e : Expr) :
    (e.lexemes kind).map (Hook.lexemeAfter hooks) = e.lexemes (kindOfName hooks kind) := by
  have hfix := fun l hl => Hook.lexemeAfter_of_ne (l := l) h hl
  induction e using Expr.induct with
  | number x => simp [Expr.lexemes, hfix]
  | param name index => rfl
  | constant name => rfl
  | unary op a ih => rw [Expr.lexemes, Expr.lexemes, map_unaryLexemes h, ih]
  | binary op a b iha ihb =>
    simp [Expr.lexemes, iha, ihb, lexemeAfter_binaryLexeme h, hfix, Lexeme.openParen, Lexeme.closeParen]
  | call name as ih =>
    have hargs : as.map (List.map (Hook.lexemeAfter hooks) ∘ Expr.lexemes kind) =
        as.map (Expr.lexemes (kindOfName hooks kind)) := List.map_congr_left ih
    simp [Expr.lexemes, Expr.lexemesAll_eq_map, map_intercalate, hargs, hfix, Lexeme.openParen, Lexeme.closeParen,
      Lexeme.comma]

theorem map_comparison (h : Hook.AtMostImaginaryUnit hooks) (c : Comparison) :
    (c.lexemes kind).map (Hook.lexemeAfter hooks) = c.lexemes (kindOfName hooks kind) := by
  simp [Comparison.lexemes, map_lexemes h, Hook.lexemeAfter_of_ne h]

theorem map_clause (h : Hook.AtMostImaginaryUnit hooks) (c : Clause) :
    (c.lexemes kind).map (Hook.lexemeAfter hooks) = c.lexemes (kindOfName hooks kind) := by
  have hguard : c.guard.map (List.map (Hook.lexemeAfter hooks) ∘ Comparison.lexemes kind) =
      c.guard.map (Comparison.lexemes (kindOfName hooks kind)) := List.map_congr_left fun k _ => map_comparison h k
  simp [Clause.lexemes, map_lexemes h, map_intercalate, hguard, Hook.lexemeAfter_of_ne h, Lexeme.keyword]

/-- **The hooks change the names alone** of a printed definition. -/
theorem map_declaration (h : Hook.AtMostImaginaryUnit hooks) (d : Declaration) :
    (d.lexemes kind).map (Hook.lexemeAfter hooks) = d.lexemes (kindOfName hooks kind) := by
  have hfix := fun l hl => Hook.lexemeAfter_of_ne (l := l) h hl
  have hhead : (d.headLexemes kind).map (Hook.lexemeAfter hooks) = d.headLexemes (kindOfName hooks kind) := by
    simp [Declaration.headLexemes, map_intercalate, hfix, Lexeme.openParen, Lexeme.closeParen, Lexeme.equals,
      Lexeme.comma, Function.comp_def]
    exact ⟨rfl, rfl⟩
  simp [Declaration.lexemes, hhead, map_lexemes h, map_clause h, List.map_flatMap, hfix, Lexeme.semicolon]

end

/-! ## Tokens of a scan -/

section

variable {lib : Library} {hooks : List Hook} {source : String} {tokens : List Token} {d : Declaration}

/-- what is read from a token of a number is neither negative nor NaN: the token begins with a digit or a point -/
theorem isNegative_isNaN_of_number (hhooks : Hook.AtMostImaginaryUnit hooks)
    (h : scanWith lib hooks source = .ok tokens) {t : Token} (ht : t ∈ tokens) (hk : t.kind = .number) {x : Binary64}
    (hx : Decimal.read? t.text = some x) : x.isNegative = false ∧ x.isNaN = false := by
  obtain ⟨l, hl, -, hmantissa⟩ := exists_lexeme_of_scanWith hhooks h ht
  have hkind : Hook.kindAfter hooks l = .number := (congrArg Lexeme.kind hl).symm.trans hk
  have hbefore : l.kind = .number := by
    rcases Hook.kindAfter_cases hhooks l with hsame | ⟨-, hconstant⟩
    · rwa [← hsame]
    · simp [hconstant] at hkind
  obtain ⟨c, hc, hmantissa⟩ := hmantissa hbefore
  have htext : t.text = l.text := congrArg Lexeme.text hl
  obtain ⟨cs, hcs⟩ := List.head?_eq_some_iff.1 hc
  rw [isMantissa_iff] at hmantissa
  exact Decimal.isNegative_isNaN_of_read? (htext ▸ hx) hcs hmantissa

/-! ## Definitions that were read -/

/-- every node can be printed and parsed again -/
theorem printable_of_written (hhooks : Hook.AtMostImaginaryUnit hooks)
    (h : scanWith lib hooks source = .ok tokens) {params : List Param} {n : Expr} (hn : Written params tokens n)
    (hfinite : ∀ x, n = .number x → x.isFinite = true) :
    n.Printable lib.lexicon (nameKind lib.lexicon) ∧
      n.Parsable params (kindOfName hooks (nameKind lib.lexicon)) := by
  cases n with
  | number x =>
    obtain ⟨t, ht, hk, hx⟩ := hn
    have hback := readsBack (hfinite x rfl) (isNegative_isNaN_of_number hhooks h ht hk hx).1
    exact ⟨hback, hback.2.2⟩
  | param name index =>
    obtain ⟨⟨t, ht, hk, rfl⟩, hfind⟩ := hn
    obtain ⟨hkind, hlegible⟩ := name_of_token hhooks h ht (.inl hk)
    exact ⟨hlegible, hkind.trans hk, hfind⟩
  | constant name =>
    obtain ⟨t, ht, rfl, hk⟩ := hn
    have hkinds : t.kind = .identifier ∨ t.kind = .constant := hk.imp_left And.left
    obtain ⟨hkind, hlegible⟩ := name_of_token hhooks h ht hkinds
    exact ⟨hlegible, hk.imp (fun hk => ⟨hkind.trans hk.1, hk.2⟩) hkind.trans⟩
  | unary | binary => exact ⟨hn, hn⟩
  | call name args =>
    obtain ⟨t, ht, hk, rfl⟩ := hn
    exact ⟨legible_of_function hhooks h ht hk, trivial⟩

/-- every node of the definition can be printed and parsed again -/
theorem printable_of_isRead (hhooks : Hook.AtMostImaginaryUnit hooks)
    (hscan : scanWith lib hooks source = .ok tokens) (hread : d.IsRead tokens)
    (hfinite : ∀ x ∈ d.literals, x.isFinite = true) {e : Expr} (he : e ∈ d.exprs) {n : Expr} (hn : n ∈ e.nodes) :
    n.Printable lib.lexicon (nameKind lib.lexicon) ∧
      n.Parsable d.params (kindOfName hooks (nameKind lib.lexicon)) := by
  refine printable_of_written hhooks hscan (hread.written he n hn) ?_
  rintro x rfl
  exact hfinite x (List.mem_flatMap.2 ⟨e, he, Expr.mem_literals.2 hn⟩)

/-- the name of the definition and those of its parameters were identifiers -/
theorem identifier_of_isRead (hread : d.IsRead tokens) {name : String} (hname : name ∈ d.name :: d.paramNames) :
    ∃ t ∈ tokens, t.kind = .identifier ∧ t.text = name := by
  rcases List.mem_cons.1 hname with rfl | hname
  · exact hread.name
  · exact hread.paramName name hname

/-- **The printed text is cut into the printed lexemes.** -/
theorem cuts_of_isRead (hlib : lib.PlainNames) (hhooks : Hook.AtMostImaginaryUnit hooks)
    (hscan : scanWith lib hooks source = .ok tokens) (hread : d.IsRead tokens)
    (hfinite : ∀ x ∈ d.literals, x.isFinite = true) :
    Cuts lib.lexicon d.text.toList (d.lexemes (nameKind lib.lexicon)) := by
  refine cuts_declaration (plain_lexicon hlib) (fun name hname => legible_keyword hlib hname) ?_ ?_
  · intro name hname
    obtain ⟨t, ht, hk, rfl⟩ := identifier_of_isRead hread hname
    exact (name_of_token hhooks hscan ht (.inl hk)).2
  · intro n hn
    obtain ⟨e, he, hn⟩ := List.mem_flatMap.1 hn
    exact (printable_of_isRead hhooks hscan hread hfinite he hn).1

/-- **The printed lexemes are parsed into the definition**, names being taken as they were. -/
theorem reparses_of_isRead (hhooks : Hook.AtMostImaginaryUnit hooks)
    (hscan : scanWith lib hooks source = .ok tokens) (hread : d.IsRead tokens)
    (hfinite : ∀ x ∈ d.literals, x.isFinite = true) : d.Reparses (kindOfName hooks (nameKind lib.lexicon)) := by
  refine ⟨hread.params, hread.nodup, ?_, hread.guarded, ?_⟩
  · intro name hname
    obtain ⟨t, ht, hk, rfl⟩ := identifier_of_isRead hread hname
    exact (name_of_token hhooks hscan ht (.inl hk)).1.trans hk
  · intro e he
    refine ⟨?_, hread.height_le he⟩
    intro n hn
    exact (printable_of_isRead hhooks hscan hread hfinite he hn).2

/-- what is scanned from a text that is cut into lexemes: the lexemes after the hooks -/
theorem exists_scanWith (hhooks : Hook.AtMostImaginaryUnit hooks) {ls : List Lexeme}
    (h : Cuts lib.lexicon source.toList ls) :
    ∃ tokens, scanWith lib hooks source = .ok tokens ∧
      tokens.map Token.lexeme = ls.map (Hook.lexemeAfter hooks) := by
  obtain ⟨raw, hraw, hlexemes⟩ := exists_scanFrom h.spells 0 []
  have hafter : Token.lexeme ∘ Hook.patchAll hooks = Hook.lexemeAfter hooks ∘ Token.lexeme :=
    funext (Hook.lexeme_patchAll hhooks)
  refine ⟨raw.map (Hook.patchAll hooks), map_eq_ok_iff.2 ⟨raw, hraw, rfl⟩, ?_⟩
  rw [List.map_map, hafter, ← List.map_map, hlexemes]

end

/-- **Round trip.** A definition that was read from a text, with finite literals, is read again from its printed text,
in every library with plain names and with no hook but that of the imaginary unit; the two libraries that come ready
made are among these. -/
theorem scanWith_text :
    ((∀ entropy, (Library.extended entropy).PlainNames) ∧ Library.basic.PlainNames) ∧
      ∀ {lib : Library} {hooks : List Hook} {source : String} {tokens : List Token} {d : Declaration}, lib.PlainNames →
        Hook.AtMostImaginaryUnit hooks → scanWith lib hooks source = .ok tokens →
        Declaration.ofTokens tokens = .ok d → (∀ x ∈ d.literals, x.isFinite = true) →
        ∃ tokens', scanWith lib hooks d.text = .ok tokens' ∧ Declaration.ofTokens tokens' = .ok d := by
  refine ⟨⟨Library.plainNames_extended, Library.plainNames_basic⟩, ?_⟩
  intro lib hooks source tokens d hlib hhooks hscan hofTokens hfinite
  have hread := Declaration.isRead_of_ofTokens hofTokens
  have hcuts := cuts_of_isRead hlib hhooks hscan hread hfinite
  have hreparses := reparses_of_isRead hhooks hscan hread hfinite
  obtain ⟨tokens', hscan', hlexemes⟩ := exists_scanWith hhooks hcuts
  rw [map_declaration hhooks] at hlexemes
  exact ⟨tokens', hscan', Declaration.ofTokens_of_lexemes hreparses hlexemes⟩

/-- a definition in which bars stand beside each other, a factorial before a word, and a guard has three members -/
def barsSource : String := "f(x, n) = ||x| - i|! mod n if n != 0 and 1.5 <= |x| < 2e3; -0.25i * sin(x)"

theorem scanWith_text_bars : ∃ tokens d, scanWith (Library.extended 0) [Hook.imaginaryUnit] barsSource = .ok tokens ∧
    Declaration.ofTokens tokens = .ok d ∧ (∀ x ∈ d.literals, x.isFinite = true) ∧
    ∃ tokens', scanWith (Library.extended 0) [Hook.imaginaryUnit] d.text = .ok tokens' ∧
      Declaration.ofTokens tokens' = .ok d := by
  have hparse : (scanWith (Library.extended 0) [Hook.imaginaryUnit] barsSource >>= Declaration.ofTokens).map
      (fun d => decide (∀ x ∈ d.literals, x.isFinite = true)) = .ok true := by
    decide +kernel
  obtain ⟨d, hd, hfinite⟩ := map_eq_ok_iff.1 hparse
  obtain ⟨tokens, hscan, hread⟩ := bind_eq_ok_iff.1 hd
  have hfinite := of_decide_eq_true hfinite
  refine ⟨tokens, d, hscan, hread, hfinite, ?_⟩
  exact scanWith_text.2 (Library.plainNames_extended 0) (.inr rfl) hscan hread hfinite

end ComplexFormula

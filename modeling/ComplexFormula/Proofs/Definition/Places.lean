/-
Definitions do not depend on the places of their tokens: tokens of the same kinds and texts form the same definition,
or fail for the same cause. So white space between tokens carries no meaning.

- `split_same`, `pieces_same`: tokens are cut alike.
- `readHead_alike`, `readGuard_alike`, `readPieces_alike`: the parts of a definition.
- `Declaration.ofTokens_alike`: whole definitions.
- `Hook.Placeless`: hooks that do not look at places.
- `scan_respaced`: **white space carries no meaning**.
-/
import ComplexFormula.Proofs.Definition.Header
import ComplexFormula.Proofs.Grammar.Places
import ComplexFormula.Proofs.Scanning.Spacing
import ComplexFormula.Token.Hook

namespace ComplexFormula

open Fault (SameCause)

/-! ## Cutting -/

section

variable {t t' : Token} {ts ts' : List Token}

theorem Token.SameLexeme.is_eq (h : t.SameLexeme t') (kind : Token.Kind) (text : String) :
    t.is kind text = t'.is kind text := by
  rw [Token.is, Token.is, h.kind_eq, h.text_eq]

/-- a separator and the tokens behind it, up to places -/
def SameLink (p p' : Token × List Token) : Prop := p.1.SameLexeme p'.1 ∧ SameLexemes p.2 p'.2

/-- tokens are cut at the same places if the separators are told by kind and text -/
theorem split_same {isSeparator : Token → Bool} (hsep : ∀ t t', t.SameLexeme t' → isSeparator t = isSeparator t')
    (h : SameLexemes ts ts') :
    SameLexemes (split isSeparator ts).1 (split isSeparator ts').1 ∧
      List.Forall₂ SameLink (split isSeparator ts).2 (split isSeparator ts').2 := by
  induction h with
  | nil => exact ⟨.nil, .nil⟩
  | @cons t t' ts ts' ht _ ih =>
    simp only [split, List.foldr_cons] at ih ⊢
    rw [splitStep, splitStep, hsep t t' ht]
    split
    case isTrue => exact ⟨.nil, .cons ⟨ht, ih.1⟩ ih.2⟩
    case isFalse => exact ⟨.cons ht ih.1, ih.2⟩

theorem pieces_same {isSeparator : Token → Bool} (hsep : ∀ t t', t.SameLexeme t' → isSeparator t = isSeparator t')
    (h : SameLexemes ts ts') : List.Forall₂ SameLexemes (pieces isSeparator ts) (pieces isSeparator ts') := by
  obtain ⟨hfirst, hothers⟩ := split_same hsep h
  refine .cons hfirst ?_
  rw [List.forall₂_map_left_iff, List.forall₂_map_right_iff]
  exact hothers.imp fun _ _ hlink => hlink.2

/-! ## Heads -/

variable (stop stop' : Nat)

theorem expect_alike (kind : Token.Kind) (due : HeadPart) (h : SameLexemes ts ts') :
    Alike SameCause SameLink (expect kind due stop ts) (expect kind due stop' ts') := by
  cases h with
  | nil => exact .error rfl
  | cons ht hts =>
    rw [expect, expect, ht.kind_eq, ht.text_eq]
    split
    · exact .ok ⟨ht, hts⟩
    · exact .error rfl

/-- what was read, and the tokens behind it up to places -/
def SameRest {α : Type} (p p' : α × List Token) : Prop := p.1 = p'.1 ∧ SameLexemes p.2 p'.2

theorem readParams_alike (done : List Param) {ts ts' : List Token} (h : SameLexemes ts ts') :
    Alike SameCause SameRest (readParams stop done ts) (readParams stop' done ts') := by
  match h with
  | .nil => exact .error rfl
  | .cons ht hts =>
    rw [readParams.eq_def, readParams.eq_def]
    simp only [ht.kind_eq, ht.text_eq]
    split
    case isTrue => exact .error rfl
    case isFalse =>
      split
      case isTrue => exact .error rfl
      case isFalse =>
        match hts with
        | .nil => exact .error rfl
        | .cons hs hrest =>
          simp only [hs.kind_eq, hs.text_eq]
          split
          · exact .ok ⟨rfl, hrest⟩
          · split
            · exact readParams_alike _ hrest
            · exact .error rfl

theorem readBracketed_alike (h : SameLexemes ts ts') :
    Alike SameCause SameRest (readBracketed stop ts) (readBracketed stop' ts') := by
  cases h with
  | nil => exact readParams_alike stop stop' [] .nil
  | cons ht hts =>
    simp only [readBracketed, ht.kind_eq]
    split
    · exact .ok ⟨rfl, hts⟩
    · exact readParams_alike stop stop' [] (.cons ht hts)

theorem readHead_alike (h : SameLexemes ts ts') :
    Alike SameCause (fun p p' => p.1 = p'.1 ∧ SameRest p.2 p'.2) (readHead stop ts) (readHead stop' ts') := by
  rw [readHead_eq, readHead_eq]
  refine (expect_alike stop stop' _ _ h).bind fun n n' hn => ?_
  refine (expect_alike stop stop' _ _ hn.2).bind fun o o' ho => ?_
  refine (readBracketed_alike stop stop' ho.2).bind fun p p' hp => ?_
  refine (expect_alike stop stop' _ _ hp.2).bind fun eq eq' heq => ?_
  exact .ok ⟨hn.1.text_eq, hp.1, heq.2⟩

/-! ## Guards -/

variable (params : List Param)

theorem isRelation_eq (h : t.SameLexeme t') : isRelation t = isRelation t' := by
  rw [isRelation, isRelation, h.kind_eq]

theorem relationOf_alike (h : t.SameLexeme t') : Alike SameCause Eq (relationOf t) (relationOf t') := by
  rw [relationOf, relationOf, h.text_eq]
  split
  · exact .ok rfl
  · exact .error rfl

theorem readChain_alike {first first' : List Token} {others others' : List (Token × List Token)}
    (hfirst : SameLexemes first first') (hothers : List.Forall₂ SameLink others others') :
    Alike SameCause Eq (readChain params stop first others) (readChain params stop' first' others') := by
  induction hothers generalizing first first' with
  | nil =>
    refine (ofTokens_alike hfirst params stop stop').bind ?_
    rintro e _ rfl
    exact .ok rfl
  | @cons p p' others others' hlink _ ih =>
    refine (relationOf_alike hlink.1).bind ?_
    rintro r _ rfl
    refine (ofTokens_alike hfirst params p.1.start p'.1.start).bind ?_
    rintro e _ rfl
    refine (ih hlink.2).bind ?_
    rintro links _ rfl
    exact .ok rfl

theorem readComparisons_alike (h : SameLexemes ts ts') :
    Alike SameCause Eq (readComparisons params stop ts) (readComparisons params stop' ts') := by
  obtain ⟨hfirst, hothers⟩ := split_same (fun _ _ => isRelation_eq) h
  unfold readComparisons
  generalize split isRelation ts = parts, split isRelation ts' = parts' at hfirst hothers ⊢
  obtain ⟨first, others⟩ := parts
  obtain ⟨first', others'⟩ := parts'
  cases hothers with
  | nil => exact .error rfl
  | cons hlink hrest =>
    refine (readChain_alike _ _ params hfirst (.cons hlink hrest)).bind ?_
    rintro links _ rfl
    exact .ok rfl

theorem readGuard_alike (h : SameLexemes ts ts') :
    Alike SameCause Eq (readGuard params stop ts) (readGuard params stop' ts') := by
  have hpieces := pieces_same (fun _ _ ht => ht.is_eq .keyword "and") h
  have hchains := Alike.mapM (hpieces.imp fun _ _ hp => readComparisons_alike stop stop' params hp)
  refine hchains.bind ?_
  intro chains chains' hall
  rw [List.forall₂_eq_eq_eq] at hall
  obtain rfl := hall
  exact .ok rfl

/-! ## Pieces -/

/-- the parts of a guarded piece, up to places -/
def SameParts (p p' : List Token × Token × List Token) : Prop :=
  SameLexemes p.1 p'.1 ∧ p.2.1.SameLexeme p'.2.1 ∧ SameLexemes p.2.2 p'.2.2

theorem takeWhile_same {p : Token → Bool} (hp : ∀ t t', t.SameLexeme t' → p t = p t') (h : SameLexemes ts ts') :
    SameLexemes (ts.takeWhile p) (ts'.takeWhile p) ∧ SameLexemes (ts.dropWhile p) (ts'.dropWhile p) := by
  induction h with
  | nil => exact ⟨.nil, .nil⟩
  | @cons t t' ts ts' ht hts ih =>
    rw [List.takeWhile_cons, List.takeWhile_cons, List.dropWhile_cons, List.dropWhile_cons, hp t t' ht]
    split
    · exact ⟨.cons ht ih.1, ih.2⟩
    · exact ⟨.nil, .cons ht hts⟩

theorem splitIf?_same (h : SameLexemes ts ts') : Option.Rel SameParts (splitIf? ts) (splitIf? ts') := by
  have hnotIf : ∀ t t' : Token, t.SameLexeme t' → (!t.is .keyword "if") = !t'.is .keyword "if" := by
    intro t t' ht
    rw [ht.is_eq]
  obtain ⟨htake, hdrop⟩ := takeWhile_same hnotIf h
  unfold splitIf?
  generalize ts.dropWhile _ = behind, ts'.dropWhile _ = behind' at hdrop ⊢
  cases hdrop with
  | nil => exact .none
  | cons ht hguard => exact .some ⟨htake, ht, hguard⟩

theorem getLast?_same (h : SameLexemes ts ts') : Option.Rel Token.SameLexeme ts.getLast? ts'.getLast? := by
  induction h with
  | nil => exact .none
  | cons ht hts ih =>
    cases hts with
    | nil => exact .some ht
    | cons => simpa only [List.getLast?_cons_cons] using ih

theorem withoutOtherwise_same (h : SameLexemes ts ts') :
    SameLexemes (withoutOtherwise ts) (withoutOtherwise ts') := by
  have hinit : SameLexemes ts.dropLast ts'.dropLast := by
    rw [List.dropLast_eq_take, List.dropLast_eq_take, h.length_eq]
    exact List.forall₂_take _ h
  have hlast := getLast?_same h
  unfold withoutOtherwise
  generalize ts.getLast? = last?, ts'.getLast? = last?' at hlast ⊢
  cases hlast with
  | none => exact h
  | some ht =>
    simp only [Option.any_some, ht.is_eq .keyword "otherwise"]
    split
    · exact hinit
    · exact h

theorem readClause_alike {p p' : List Token × Token × List Token} (h : SameParts p p') :
    Alike SameCause Eq (readClause params stop p.1 p.2.1 p.2.2) (readClause params stop' p'.1 p'.2.1 p'.2.2) := by
  obtain ⟨hvalue, -, hguard⟩ := h
  refine (ofTokens_alike hvalue params p.2.1.start p'.2.1.start).bind ?_
  rintro e _ rfl
  refine (readGuard_alike stop stop' params hguard).bind ?_
  rintro cs _ rfl
  exact .ok rfl

theorem readBody_alike (h : SameLexemes ts ts') :
    Alike SameCause Eq (readBody params stop ts) (readBody params stop' ts') :=
  ofTokens_alike (withoutOtherwise_same h) params _ _

theorem readPieces_alike (body? : Option Expr) (done : List Clause) {ps ps' : List (List Token)}
    (h : List.Forall₂ SameLexemes ps ps') :
    Alike SameCause Eq (readPieces params stop body? done ps) (readPieces params stop' body? done ps') := by
  induction h generalizing body? done with
  | nil =>
    cases body? with
    | none => exact .error rfl
    | some body => exact .ok rfl
  | @cons p p' ps ps' hp _ ih =>
    cases hp with
    | nil => exact ih body? done
    | @cons t t' ts ts' ht hts =>
      have hpiece : SameLexemes (t :: ts) (t' :: ts') := .cons ht hts
      have hsplit := splitIf?_same hpiece
      unfold readPieces
      generalize splitIf? (t :: ts) = parts, splitIf? (t' :: ts') = parts' at hsplit ⊢
      cases hsplit with
      | none =>
        cases body? with
        | some body => exact .error rfl
        | none =>
          obtain ⟨e, e', he, he', rfl⟩ | ⟨fault, fault', hfault, hfault', h⟩ :=
            (readBody_alike t.start t'.start params hpiece).exists_ok_or_error
          · simp only [he, he']
            exact ih (some e) done
          · simp only [hfault, hfault']
            exact .error h
      | some hparts =>
        obtain ⟨c, c', hc, hc', rfl⟩ | ⟨fault, fault', hfault, hfault', h⟩ :=
          (readClause_alike (endOf (t :: ts) stop) (endOf (t' :: ts') stop') params hparts).exists_ok_or_error
        · simp only [hc, hc']
          exact ih body? (c :: done)
        · simp only [hfault, hfault']
          exact .error h

/-- **Definitions do not depend on places**: tokens of the same kinds and texts form the same definition, or fail for
the same cause. -/
theorem Declaration.ofTokens_alike (h : SameLexemes ts ts') :
    Alike SameCause Eq (Declaration.ofTokens ts) (Declaration.ofTokens ts') := by
  refine (readHead_alike _ _ h).bind ?_
  rintro ⟨name, params, rest⟩ ⟨_, _, rest'⟩ ⟨rfl, rfl, hrest⟩
  have hsep : ∀ t t' : Token, t.SameLexeme t' → (t.kind == .semicolon) = (t'.kind == .semicolon) := by
    intro t t' ht
    rw [ht.kind_eq]
  have hpieces := pieces_same hsep hrest
  refine (readPieces_alike _ _ params none [] hpieces).bind ?_
  rintro parts _ rfl
  exact .ok rfl

end

/-! ## Hooks -/

namespace Hook

/-- the hook changes tokens without a look at their places -/
def Placeless (hook : Hook) : Prop := ∀ t t' : Token, t.SameLexeme t' → (hook.patch t).SameLexeme (hook.patch t')

theorem placeless_imaginaryUnit : imaginaryUnit.Placeless := by
  intro t t' h
  simp only [imaginaryUnit, h.is_eq .identifier "i"]
  split
  · exact congrArg (Lexeme.mk .constant) h.text_eq
  · exact h

theorem patchAll_same {hooks : List Hook} (hhooks : ∀ hook ∈ hooks, hook.Placeless) {t t' : Token}
    (h : t.SameLexeme t') : (patchAll hooks t).SameLexeme (patchAll hooks t') := by
  induction hooks generalizing t t' with
  | nil => exact h
  | cons hook hooks ih =>
    rw [List.forall_mem_cons] at hhooks
    exact ih hhooks.2 (hhooks.1 t t' h)

end Hook

/-! ## White space -/

/-- **White space between tokens carries no meaning.** A source made of the same token texts with other white space
between them is scanned into tokens of the same kinds and texts; and with or without the hook of the imaginary unit they
form the same definition, or none for the same cause. -/
theorem scan_respaced {lib : Library} (hlib : lib.VisibleNames) {source source' : String} {ts : List Token}
    (h : scan lib source = .ok ts) (hspaced : Respaced (ts.map Token.text) source') :
    ∃ ts', scan lib source' = .ok ts' ∧ ts'.map Token.lexeme = ts.map Token.lexeme ∧
      ∀ hooks ∈ [[], [Hook.imaginaryUnit]],
        (∀ d, Declaration.ofTokens (ts.map (Hook.patchAll hooks)) = .ok d ↔
            Declaration.ofTokens (ts'.map (Hook.patchAll hooks)) = .ok d) ∧
          Alike SameCause Eq (Declaration.ofTokens (ts.map (Hook.patchAll hooks)))
            (Declaration.ofTokens (ts'.map (Hook.patchAll hooks))) := by
  obtain ⟨ts', hscan, hlexemes⟩ := exists_scan_of_respaced hlib h hspaced
  refine ⟨ts', hscan, hlexemes, ?_⟩
  intro hooks hhooks
  have hplaceless : ∀ hook ∈ hooks, hook.Placeless := by
    simp only [List.mem_cons, List.not_mem_nil, or_false] at hhooks
    obtain rfl | rfl := hhooks
    · exact List.forall_mem_nil _
    · exact List.forall_mem_singleton.2 Hook.placeless_imaginaryUnit
  have hsame : SameLexemes (ts.map (Hook.patchAll hooks)) (ts'.map (Hook.patchAll hooks)) := by
    rw [SameLexemes, List.forall₂_map_left_iff, List.forall₂_map_right_iff]
    exact (sameLexemes_iff.2 hlexemes.symm).imp fun _ _ => Hook.patchAll_same hplaceless
  have halike := Declaration.ofTokens_alike hsame
  exact ⟨fun d => halike.ok_iff, halike⟩

/-- the same definition with and without blanks; `1e` is no number, however much stands behind it -/
theorem scan_respaced_imaginary : ∃ ts ts' d,
    scan .basic "f()=1e+i" = .ok ts ∧ scan .basic "f ( ) = 1 e + i " = .ok ts' ∧
    ts'.map Token.lexeme = ts.map Token.lexeme ∧
    Declaration.ofTokens (ts.map (Hook.patchAll [.imaginaryUnit])) = .ok d ∧
    Declaration.ofTokens (ts'.map (Hook.patchAll [.imaginaryUnit])) = .ok d := by
  have hscan : (scan .basic "f()=1e+i").map (List.map Token.text) = .ok ["f", "(", ")", "=", "1", "e", "+", "i"] := by
    decide +kernel
  obtain ⟨ts, hts, htexts⟩ := map_eq_ok_iff.1 hscan
  have hspaced : Respaced (ts.map Token.text) "f ( ) = 1 e + i " := by
    rw [htexts]
    exact respaced_blank (by decide)
  obtain ⟨ts', hts', hlexemes, hread⟩ := scan_respaced Library.plainNames_basic.visibleNames hts hspaced
  have hname : ((scanWith .basic [.imaginaryUnit] "f()=1e+i") >>= Declaration.ofTokens).map Declaration.name =
      .ok "f" := by
    decide +kernel
  obtain ⟨d, hd, -⟩ := map_eq_ok_iff.1 hname
  rw [scanWith, hts] at hd
  exact ⟨ts, ts', d, hts, hts', hlexemes, hd, ((hread [.imaginaryUnit] (by simp)).1 d).1 hd⟩

end ComplexFormula

/-
What a scan makes of a text, positions left aside: the kinds and texts of the tokens.

- `Lexeme`: a token without its place.
- `Spells`: a text falls apart into lexemes.
- `scanFrom_of_none`, `scanFrom_of_extent`: a scan at a character that begins no token, and at a token.
- `exists_scanFrom`, `spells_of_scanFrom`: a scan succeeds exactly where the text falls apart, with these lexemes.
-/
import ComplexFormula.Proofs.Outcome
import ComplexFormula.Proofs.Scanning.Extent

namespace ComplexFormula

/-- a token without its place -/
structure Lexeme where
  kind : Token.Kind
  text : String
deriving DecidableEq, Repr

/-- the token without its place -/
def Token.lexeme (t : Token) : Lexeme := ⟨t.kind, t.text⟩

@[simp] theorem Token.lexeme_kind (t : Token) : t.lexeme.kind = t.kind := rfl

@[simp] theorem Token.lexeme_text (t : Token) : t.lexeme.text = t.text := rfl

/-- the text falls apart into these lexemes, white space left out -/
inductive Spells (words : List Word) : List Char → List Lexeme → Prop where
  | nil : Spells words [] []
  | blank {c cs ls} (hc : Text.isBlank c = true) (h : Spells words cs ls) : Spells words (c :: cs) ls
  | lexeme {c part behind kind ls} (hc : Text.isBlank c = false)
      (hextent : extent? words c (part ++ behind) = some (kind, part.length + 1))
      (hnumber : kind = .number → (Decimal.read? (.ofList (c :: part))).isSome = true)
      (h : Spells words behind ls) : Spells words (c :: (part ++ behind)) (⟨kind, .ofList (c :: part)⟩ :: ls)

variable {words : List Word} {pos : Nat} {done ts : List Token} {c : Char} {cs part behind : List Char}
  {ls : List Lexeme} {kind : Token.Kind}

theorem tokenAt_eq_ok_iff {text : String} {t : Token} :
    tokenAt kind pos text = .ok t ↔
      (kind = .number → (Decimal.read? text).isSome = true) ∧ t = ⟨kind, text, pos, pos + text.utf8ByteSize⟩ := by
  have hiff : (kind = .number → (Decimal.read? text).isSome = true) ↔
      ¬(kind = .number ∧ (Decimal.read? text).isNone = true) := by
    rw [not_and, Bool.not_eq_true, Option.isNone_eq_false_iff]
  rw [tokenAt, hiff]
  split
  case isTrue h => exact ⟨fun ht => (by cases ht), fun ht => absurd h ht.1⟩
  case isFalse h => exact ⟨fun ht => ⟨h, (Except.ok.inj ht).symm⟩, fun ht => ht.2 ▸ rfl⟩

theorem scanFrom_of_none (hc : Text.isBlank c = false) (hextent : extent? words c cs = none) :
    scanFrom words pos done (c :: cs) = .error (.unexpectedCharacter c pos) := by
  rw [scanFrom, if_neg (by simp [hc])]
  split
  case h_1 => rfl
  case h_2 hsome => cases hextent.symm.trans hsome

/-- a scan takes the token that it finds, and goes on behind it -/
theorem scanFrom_of_extent (hc : Text.isBlank c = false)
    (hextent : extent? words c (part ++ behind) = some (kind, part.length + 1)) :
    scanFrom words pos done (c :: (part ++ behind)) =
      tokenAt kind pos (.ofList (c :: part)) >>= fun t => scanFrom words t.stop (t :: done) behind := by
  rw [scanFrom, if_neg (by simp [hc])]
  split
  case h_1 hnone => cases hnone.symm.trans hextent
  case h_2 kind' size hsome =>
    obtain ⟨rfl, rfl⟩ := Prod.mk.inj (Option.some.inj (hsome.symm.trans hextent))
    rw [List.take_succ_cons, List.take_left, List.drop_succ_cons, List.drop_left]
    cases tokenAt kind' pos (.ofList (c :: part)) <;> rfl

/-- a text that falls apart is scanned, from any byte on -/
theorem exists_scanFrom (h : Spells words cs ls) (pos : Nat) (done : List Token) :
    ∃ ts, scanFrom words pos done cs = .ok (done.reverse ++ ts) ∧ ts.map Token.lexeme = ls := by
  induction h generalizing pos done with
  | nil => exact ⟨[], by simp [scanFrom], rfl⟩
  | @blank c cs ls hc _ ih =>
    obtain ⟨ts, hscan, hts⟩ := ih (pos + c.utf8Size) done
    exact ⟨ts, by rw [scanFrom, if_pos hc, hscan], hts⟩
  | @lexeme c part behind kind ls hc hextent hnumber _ ih =>
    let t : Token := ⟨kind, .ofList (c :: part), pos, pos + (String.ofList (c :: part)).utf8ByteSize⟩
    have htoken : tokenAt kind pos (.ofList (c :: part)) = .ok t := tokenAt_eq_ok_iff.2 ⟨hnumber, rfl⟩
    obtain ⟨ts, hscan, hts⟩ := ih t.stop (t :: done)
    refine ⟨t :: ts, ?_, by rw [List.map_cons, hts]; rfl⟩
    rw [scanFrom_of_extent hc hextent, htoken, ok_bind, hscan, List.reverse_cons, List.append_assoc,
      List.singleton_append]

/-- a text that is scanned falls apart into the lexemes of its tokens -/
theorem spells_of_scanFrom (h : scanFrom words pos done cs = .ok ts) :
    ∃ us, ts = done.reverse ++ us ∧ Spells words cs (us.map Token.lexeme) := by
  fun_induction scanFrom words pos done cs with
  | case1 => exact ⟨[], by simpa using (Except.ok.inj h).symm, .nil⟩
  | case2 pos done c cs hc ih =>
    obtain ⟨us, rfl, hus⟩ := ih h
    exact ⟨us, rfl, .blank hc hus⟩
  | case3 | case4 => cases h
  | case5 pos done c cs hc kind size hextent t htoken ih =>
    obtain ⟨part, behind, rfl, rfl⟩ := exists_cut hextent
    rw [List.take_succ_cons, List.take_left] at htoken
    rw [List.drop_succ_cons, List.drop_left] at h ih
    obtain ⟨us, rfl, hus⟩ := ih h
    obtain ⟨hnumber, rfl⟩ := tokenAt_eq_ok_iff.1 htoken
    refine ⟨⟨kind, .ofList (c :: part), pos, pos + (String.ofList (c :: part)).utf8ByteSize⟩ :: us, by simp, ?_⟩
    exact .lexeme (by simpa using hc) hextent hnumber hus

end ComplexFormula

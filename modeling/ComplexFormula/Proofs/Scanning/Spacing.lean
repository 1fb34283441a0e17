/-
White space between tokens. A token ends where what follows does not belong to it: no exponent, no letter of a longer
word, no further digit, no equals sign. A blank is none of these, so a token that was found in one text is found in
front of a blank as well, and tokens keep their kinds and texts however much white space is written between them.

- `BlankAhead`, `Visible`: nothing but a blank follows; words without blanks.
- `extent_of_blankAhead`: the extent of a token, the text behind it replaced by a blank.
- `Spaced`, `Respaced`: texts with white space between them.
- `exists_scan_of_respaced`: such a text is scanned into the same lexemes.
-/
import ComplexFormula.Proofs.Scanning.Lexicon

namespace ComplexFormula

open Decimal (isDigit)

/-! ## Blanks -/

/-- nothing follows, or a blank does -/
def BlankAhead (rest : List Char) : Prop := ∀ c ∈ rest.head?, Text.isBlank c = true

/-- no letter of a word is blank -/
def Visible (words : List Word) : Prop := ∀ w ∈ words, ∀ c ∈ w.letters, Text.isBlank c = false

section

variable {words : List Word} {c : Char} {cs part behind rest : List Char} {kind : Token.Kind}

theorem isDigit_of_isBlank (h : Text.isBlank c = true) : isDigit c = false := by
  by_contra hdigit
  rw [Bool.not_eq_false] at hdigit
  simp [isBlank_of_isNameChar (c := c) (by simp [isNameChar, hdigit])] at h

theorem isMantissa_of_isBlank (h : Text.isBlank c = true) : isMantissa c = false := by
  by_contra hmantissa
  rw [Bool.not_eq_false] at hmantissa
  exact Bool.false_ne_true ((isBlank_of_isMantissa hmantissa).symm.trans h)

theorem exponentLength_of_blankAhead (hrest : BlankAhead rest) : exponentLength rest = 0 := by
  refine exponentLength_eq_zero fun c hc => ?_
  have hblank := hrest c hc
  constructor
  · rintro rfl
    cases hblank
  · rintro rfl
    cases hblank

/-! ## Numbers -/

theorem signLength_congr {cs' : List Char} (h : cs.head? = cs'.head?) : signLength cs = signLength cs' := by
  cases cs with
  | nil =>
    obtain rfl := List.head?_eq_none_iff.1 h.symm
    rfl
  | cons c cs =>
    obtain ⟨cs', rfl⟩ := List.head?_eq_some_iff.1 h.symm
    unfold signLength
    split <;> simp_all

/-- an exponent is as long in front of a blank -/
theorem exponentLength_take (hrest : BlankAhead rest) (cs : List Char) :
    exponentLength (cs.take (exponentLength cs) ++ rest) = exponentLength cs := by
  cases cs with
  | nil => simpa [exponentLength] using exponentLength_of_blankAhead hrest
  | cons c cs =>
    by_cases hexponent : (c = 'e' ∨ c = 'E') ∧ 0 < ((cs.drop (signLength cs)).takeWhile isDigit).length
    · have hlength : exponentLength (c :: cs) =
          1 + signLength cs + ((cs.drop (signLength cs)).takeWhile isDigit).length := if_pos hexponent
      have hroom := signLength_add_le cs hexponent.2
      rw [hlength]
      generalize hsize : ((cs.drop (signLength cs)).takeWhile isDigit).length = size at hexponent hroom hlength ⊢
      have htake : (c :: cs).take (1 + signLength cs + size) = c :: cs.take (signLength cs + size) := by
        rw [Nat.add_assoc, Nat.add_comm 1, List.take_succ_cons]
      have hsign : signLength (cs.take (signLength cs + size) ++ rest) = signLength cs := by
        apply signLength_congr
        have hne : cs ≠ [] := List.length_pos_iff.1 (by omega)
        obtain ⟨d, ds, rfl⟩ := List.exists_cons_of_ne_nil hne
        rw [List.head?_append, List.head?_take, if_neg (by omega)]
        rfl
      have hdigits : ((cs.take (signLength cs + size) ++ rest).drop (signLength cs)).takeWhile isDigit =
          (cs.drop (signLength cs)).takeWhile isDigit := by
        rw [List.drop_append_of_le_length (by rw [List.length_take]; omega), List.drop_take, Nat.add_sub_cancel_left,
          ← hsize, ← List.prefix_iff_eq_take.1 (List.takeWhile_prefix isDigit)]
        exact takeWhile_append (fun b hb => List.mem_takeWhile_imp hb) fun b hb => isDigit_of_isBlank (hrest b hb)
      rw [htake, List.cons_append, exponentLength, hsign, hdigits, hsize]
      exact if_pos hexponent
    · have hzero : exponentLength (c :: cs) = 0 := if_neg hexponent
      rw [hzero]
      exact exponentLength_of_blankAhead hrest

/-- a number is as long in front of a blank -/
theorem numberLength_take (hrest : BlankAhead rest) (cs : List Char) :
    numberLength (cs.take (numberLength cs) ++ rest) = numberLength cs := by
  have hsplit : cs.takeWhile isMantissa ++ cs.dropWhile isMantissa = cs := List.takeWhile_append_dropWhile
  generalize hfront : cs.takeWhile isMantissa = front, hback : cs.dropWhile isMantissa = back at hsplit
  have hdrop : cs.drop front.length = back := by rw [← hsplit, List.drop_left]
  have hlength : numberLength cs = front.length + exponentLength back := by rw [numberLength, hfront, hdrop]
  have htake : cs.take (numberLength cs) = front ++ back.take (exponentLength back) := by
    rw [hlength, ← hsplit, List.take_length_add_append]
  have hfront' : (front ++ (back.take (exponentLength back) ++ rest)).takeWhile isMantissa = front := by
    refine takeWhile_append (fun c hc => List.mem_takeWhile_imp (hfront ▸ hc)) fun c hc => ?_
    -- behind the mantissa stands an exponent, or else a blank
    rw [List.head?_append, List.head?_take] at hc
    split at hc
    case isTrue => exact isMantissa_of_isBlank (hrest c hc)
    case isFalse hexponent =>
      cases hhead : back.head? with
      | none =>
        rw [List.head?_eq_none_iff] at hhead
        simp [hhead, exponentLength] at hexponent
      | some b =>
        rw [hhead] at hc
        obtain rfl := Option.some.inj hc
        have hstop := List.head?_dropWhile_not isMantissa cs
        rw [hback, hhead] at hstop
        exact hstop
  rw [htake, List.append_assoc, hlength, numberLength, hfront', List.drop_left, exponentLength_take hrest]

/-! ## Tokens in front of blanks -/

/-- a symbol looks at nothing but an equals sign behind it, and a blank is none -/
theorem symbolExtent_of_blankAhead (hrest : BlankAhead rest)
    (h : symbolExtent? c (part ++ behind) = some (kind, part.length + 1)) :
    symbolExtent? c (part ++ rest) = some (kind, part.length + 1) := by
  obtain ⟨hsize, hsingle⟩ | ⟨hsize, hhead, hdouble⟩ := symbolExtent_cases h
  · obtain rfl : part = [] := List.length_eq_zero_iff.1 (by omega)
    refine hsingle rest ?_
    rw [beq_eq_false_iff_ne]
    intro hequals
    cases hrest '=' hequals
  · obtain ⟨d, rfl⟩ := List.length_eq_one_iff.1 (show part.length = 1 by omega)
    obtain rfl : d = '=' := Option.some.inj hhead
    exact hdouble _ rfl

/-- **A token that was found** is found in front of a blank as well. -/
theorem extent_of_blankAhead (hwords : Visible words) (hrest : BlankAhead rest)
    (h : extent? words c (part ++ behind) = some (kind, part.length + 1)) :
    extent? words c (part ++ rest) = some (kind, part.length + 1) := by
  by_cases hmantissa : isMantissa c = true
  · rw [extent_of_isMantissa hmantissa] at h ⊢
    obtain ⟨rfl, hlength⟩ := Prod.mk.inj (Option.some.inj h)
    have hagain := numberLength_take hrest (c :: (part ++ behind))
    rw [hlength, List.take_succ_cons, List.take_left, List.cons_append] at hagain
    rw [hagain]
  · by_cases hletter : isLetter c = true
    · rw [extent_of_isLetter hletter] at h ⊢
      have halone := wordExtent_of_append (Option.some.inj h)
      refine congrArg some (wordExtent_append_rest (fun w hw b hb hmem => ?_) (fun b hb => ?_) halone)
      · exact Bool.false_ne_true ((hwords w hw b hmem).symm.trans (hrest b hb))
      · exact isDigit_of_isBlank (hrest b hb)
    · rw [extent_of_symbol hmantissa hletter] at h ⊢
      exact symbolExtent_of_blankAhead hrest h

end

/-! ## Texts with white space between them -/

/-- the texts in order, each with white space behind it, of which only the last may have none -/
inductive Spaced : List String → List Char → Prop where
  | nil : Spaced [] []
  | cons {text gap texts rest} (hgap : ∀ c ∈ gap, Text.isBlank c = true) (hsep : texts ≠ [] → gap ≠ [])
    (h : Spaced texts rest) : Spaced (text :: texts) (text.toList ++ (gap ++ rest))

/-- the source is made of the texts in order, with white space between any two neighbours and perhaps at both ends -/
def Respaced (texts : List String) (source : String) : Prop :=
  ∃ lead rest, source.toList = lead ++ rest ∧ (∀ c ∈ lead, Text.isBlank c = true) ∧ Spaced texts rest

theorem spaced_blank (texts : List String) : Spaced texts (texts.flatMap fun text => text.toList ++ [' ']) := by
  induction texts with
  | nil => exact .nil
  | cons text texts ih =>
    rw [List.flatMap_cons, List.append_assoc]
    exact .cons (List.forall_mem_singleton.2 rfl) (fun _ => List.cons_ne_nil _ _) ih

/-- one blank behind every text is enough -/
theorem respaced_blank {texts : List String} {source : String}
    (h : source.toList = texts.flatMap fun text => text.toList ++ [' ']) : Respaced texts source :=
  ⟨[], _, h, List.forall_mem_nil _, spaced_blank texts⟩

/-- the lexeme is found in front of any blank -/
def Lexeme.Stands (words : List Word) (l : Lexeme) : Prop :=
  ∃ c cs, l.text.toList = c :: cs ∧ Text.isBlank c = false ∧
    (l.kind = .number → (Decimal.read? l.text).isSome = true) ∧
    ∀ rest, BlankAhead rest → extent? words c (cs ++ rest) = some (l.kind, cs.length + 1)

section

variable {words : List Word} {cs gap rest : List Char} {ls : List Lexeme} {l : Lexeme}

/-- every lexeme of a text that was scanned stands on its own -/
theorem Spells.stands (hwords : Visible words) (h : Spells words cs ls) : ∀ l ∈ ls, l.Stands words := by
  induction h with
  | nil => simp
  | blank _ _ ih => exact ih
  | @lexeme c part behind kind ls hc hextent hnumber _ ih =>
    refine List.forall_mem_cons.2 ⟨⟨c, part, String.toList_ofList, hc, hnumber, ?_⟩, ih⟩
    exact fun rest hrest => extent_of_blankAhead hwords hrest hextent

theorem Lexeme.Stands.spells (h : l.Stands words) (hrest : BlankAhead rest) (hs : Spells words rest ls) :
    Spells words (l.text.toList ++ rest) (l :: ls) := by
  obtain ⟨c, cs, htext, hc, hnumber, hextent⟩ := h
  have hl : String.ofList (c :: cs) = l.text := by rw [← htext, String.ofList_toList]
  have hspells := Spells.lexeme hc (hextent rest hrest) (fun hk => hl ▸ hnumber hk) hs
  rwa [hl, ← List.cons_append, ← htext] at hspells

theorem Spells.blanks (hgap : ∀ c ∈ gap, Text.isBlank c = true) (h : Spells words rest ls) :
    Spells words (gap ++ rest) ls := by
  induction gap with
  | nil => exact h
  | cons c gap ih =>
    rw [List.forall_mem_cons] at hgap
    exact .blank hgap.1 (ih hgap.2)

/-- **Lexemes that stand on their own** are found again however they are spaced. -/
theorem Spaced.spells (h : Spaced (ls.map Lexeme.text) cs) (hls : ∀ l ∈ ls, l.Stands words) : Spells words cs ls := by
  induction ls generalizing cs with
  | nil =>
    cases h
    exact .nil
  | cons l ls ih =>
    rw [List.forall_mem_cons] at hls
    rw [List.map_cons] at h
    cases h with
    | @cons _ gap _ rest hgap hsep h =>
      refine hls.1.spells ?_ ((ih h hls.2).blanks hgap)
      -- a gap without characters is the last one, and then nothing follows
      intro c hc
      cases gap with
      | cons b gap =>
        obtain rfl := Option.some.inj hc
        exact hgap b List.mem_cons_self
      | nil =>
        have hlast : ls.map Lexeme.text = [] := by
          by_contra hne
          exact hsep hne rfl
        rw [hlast] at h
        cases h
        cases hc

end

/-! ## Libraries -/

variable {lib : Library}

/-- no name of a function or a constant has a blank -/
def Library.VisibleNames (lib : Library) : Prop :=
  ∀ name ∈ lib.functions.names ++ lib.constants.names, ∀ c ∈ name.toList, Text.isBlank c = false

/-- plain names have no blanks -/
theorem Library.PlainNames.visibleNames (h : lib.PlainNames) : lib.VisibleNames :=
  fun name hname c hc => isBlank_of_isNameChar ((h name hname).1 c hc)

theorem visible_lexicon (h : lib.VisibleNames) : Visible lib.lexicon := by
  intro w hw
  refine letters_of_mem_lexicon h (fun name hname c hc => ?_) hw
  exact isBlank_of_isNameChar (isNameChar_of_mem_keywords hname c hc)

/-- **White space between tokens** changes neither their kinds nor their texts. -/
theorem exists_scan_of_respaced (hlib : lib.VisibleNames) {source source' : String} {ts : List Token}
    (h : scan lib source = .ok ts) (hspaced : Respaced (ts.map Token.text) source') :
    ∃ ts', scan lib source' = .ok ts' ∧ ts'.map Token.lexeme = ts.map Token.lexeme := by
  obtain ⟨us, hus, hspells⟩ := spells_of_scanFrom h
  obtain rfl : ts = us := hus
  obtain ⟨lead, rest, hsource, hlead, hrest⟩ := hspaced
  have htexts : ts.map Token.text = (ts.map Token.lexeme).map Lexeme.text := by
    rw [List.map_map]
    rfl
  rw [htexts] at hrest
  have hagain := (hrest.spells (hspells.stands (visible_lexicon hlib))).blanks hlead
  rw [← hsource] at hagain
  exact exists_scanFrom hagain 0 []

end ComplexFormula

/-
Texts put together from parts that are cut apart again: names and numbers in front of anything that ends them, symbols
and blanks in front of anything at all.

- `Cuts`, `Severs`: a part of a text with its lexemes, and what may stand behind it.
- `Cuts.append`, `Severs.append`: parts one after the other.
- `Legible.cuts`, `cuts_number`: names and numbers.
-/
import ComplexFormula.Proofs.Scanning.Words

namespace ComplexFormula

open Decimal (isDigit)

/-- the text is cut into the lexemes in front of anything that ends names and numbers -/
def Cuts (words : List Word) (cs : List Char) (ls : List Lexeme) : Prop :=
  ∀ rest ls', Ends rest → Spells words rest ls' → Spells words (cs ++ rest) (ls ++ ls')

/-- the text is cut into the lexemes in front of anything -/
def Severs (words : List Word) (cs : List Char) (ls : List Lexeme) : Prop :=
  ∀ rest ls', Spells words rest ls' → Spells words (cs ++ rest) (ls ++ ls')

section

variable {words : List Word} {cs cs' rest : List Char} {ls ls' : List Lexeme} {l : Lexeme} {c : Char}

/-! ## Parts one after the other -/

theorem Ends.append (h : Ends cs) (hne : cs ≠ []) (rest : List Char) : Ends (cs ++ rest) := by
  cases cs with
  | nil => exact absurd rfl hne
  | cons c cs => exact h

theorem Cuts.spells (h : Cuts words cs ls) : Spells words cs ls := by
  simpa using h [] [] (by simp [Ends]) .nil

theorem Severs.cuts (h : Severs words cs ls) : Cuts words cs ls := fun rest ls' _ => h rest ls'

theorem Severs.nil : Severs words [] [] := fun _ _ h => h

/-- behind a name or a number something has to end it -/
theorem Cuts.append (h : Cuts words cs ls) (h' : Cuts words cs' ls') (hends : Ends cs') (hne : cs' ≠ []) :
    Cuts words (cs ++ cs') (ls ++ ls') := by
  intro rest ks hrest hs
  rw [List.append_assoc, List.append_assoc]
  exact h _ _ (hends.append hne rest) (h' rest ks hrest hs)

theorem Severs.append (h : Severs words cs ls) (h' : Cuts words cs' ls') : Cuts words (cs ++ cs') (ls ++ ls') := by
  intro rest ks hrest hs
  rw [List.append_assoc, List.append_assoc]
  exact h _ _ (h' rest ks hrest hs)

theorem Severs.append_severs (h : Severs words cs ls) (h' : Severs words cs' ls') :
    Severs words (cs ++ cs') (ls ++ ls') := by
  intro rest ks hs
  rw [List.append_assoc, List.append_assoc]
  exact h _ _ (h' rest ks hs)

/-- what is cut apart from a separator behind it is cut in front of anything -/
theorem Cuts.close (h : Cuts words cs ls) (h' : Severs words cs' ls') (hends : Ends cs') (hne : cs' ≠ []) :
    Severs words (cs ++ cs') (ls ++ ls') := by
  intro rest ks hs
  rw [List.append_assoc, List.append_assoc]
  exact h _ _ (hends.append hne rest) (h' rest ks hs)

theorem Severs.flatMap {α : Type} {f : α → List Char} {g : α → List Lexeme} {as : List α}
    (h : ∀ a ∈ as, Severs words (f a) (g a)) : Severs words (as.flatMap f) (as.flatMap g) := by
  induction as with
  | nil => exact .nil
  | cons a as ih =>
    rw [List.flatMap_cons, List.flatMap_cons]
    exact (h a List.mem_cons_self).append_severs (ih fun b hb => h b (List.mem_cons_of_mem a hb))

/-- parts with a separator between them -/
theorem Cuts.intercalate {sep : List Char} {seps : List Lexeme} (hsep : Severs words sep seps) (hends : Ends sep)
    (hne : sep ≠ []) {css : List (List Char)} {lss : List (List Lexeme)}
    (h : List.Forall₂ (Cuts words) css lss) : Cuts words (sep.intercalate css) (seps.intercalate lss) := by
  induction h with
  | nil => exact Severs.nil.cuts
  | @cons cs ls css lss hcs hrest ih =>
    cases hrest with
    | nil => simpa using hcs
    | @cons cs' ls' css lss hcs' hrest =>
      have hboth := hcs.append (hsep.append ih) (hends.append hne _) (by simp [hne])
      simpa [List.intercalate] using hboth

/-! ## Symbols -/

theorem severs_blank (hc : Text.isBlank c = true) : Severs words [c] [] := fun _ _ h => .blank hc h

/-- a symbol that is cut off in front of everything -/
theorem severs_symbol {kind : Token.Kind} (hc : Text.isBlank c = false) (hk : kind ≠ .number)
    (h : ∀ cs, extent? words c cs = some (kind, 1)) : Severs words [c] [⟨kind, .ofList [c]⟩] :=
  fun rest _ hs => @Spells.lexeme words c [] rest kind _ hc (h rest) (fun hn => absurd hn hk) hs

/-- a symbol of two characters -/
theorem severs_symbols {kind : Token.Kind} {d : Char} (hc : Text.isBlank c = false) (hk : kind ≠ .number)
    (h : ∀ cs, extent? words c (d :: cs) = some (kind, 2)) : Severs words [c, d] [⟨kind, .ofList [c, d]⟩] :=
  fun rest _ hs => @Spells.lexeme words c [d] rest kind _ hc (h rest) (fun hn => absurd hn hk) hs

/-- a symbol in front of a blank -/
theorem severs_symbol_blank {kind : Token.Kind} (hc : Text.isBlank c = false) (hk : kind ≠ .number)
    (h : ∀ cs, extent? words c (' ' :: cs) = some (kind, 1)) : Severs words [c, ' '] [⟨kind, .ofList [c]⟩] :=
  fun rest _ hs => @Spells.lexeme words c [] (' ' :: rest) kind _ hc (h rest) (fun hn => absurd hn hk) (.blank rfl hs)

/-! ## Names -/

theorem isBlank_of_isNameChar (h : isNameChar c = true) : Text.isBlank c = false := by
  have ha : 'a'.val.toNat = 97 := rfl
  have hz : 'z'.val.toNat = 122 := rfl
  have hA : 'A'.val.toNat = 65 := rfl
  have hZ : 'Z'.val.toNat = 90 := rfl
  have h0 : '0'.val.toNat = 48 := rfl
  have h9 : '9'.val.toNat = 57 := rfl
  simp only [isNameChar, isLetter, isDigit, Bool.or_eq_true, Bool.and_eq_true, decide_eq_true_eq, beq_iff_eq,
    Char.le_def, UInt32.le_iff_toNat_le] at h
  simp only [Text.isBlank, Text.inRanges, Text.blankRanges, List.any_cons, List.any_nil, Bool.or_false,
    Bool.or_eq_false_iff, Bool.and_eq_false_iff, decide_eq_false_iff_not, Char.toNat]
  rcases h with ((⟨hlow, hhigh⟩ | ⟨hlow, hhigh⟩) | ⟨hlow, hhigh⟩) | rfl
  · omega
  · omega
  · omega
  · decide

/-- a word or identifier is cut off in front of anything that ends it -/
theorem Legible.cuts (hwords : Plain words) (h : Legible words l) (hk : l.kind ≠ .number) :
    Cuts words l.text.toList [l] := by
  intro rest ls' hrest hs
  have hnames := h.nameChars hwords
  have hextent := fun c cs (htext : l.text.toList = c :: cs) => h.wordExtent_append hwords htext hrest
  obtain ⟨c, cs, htext, hc, -⟩ := h
  rw [htext] at hnames ⊢
  have hextent : extent? words c (cs ++ rest) = some (l.kind, cs.length + 1) := by
    rw [extent_of_isLetter hc, hextent c cs htext]
  have hspells := Spells.lexeme (isBlank_of_isNameChar (hnames c List.mem_cons_self)) hextent
    (fun hn => absurd hn hk) hs
  rw [← htext, String.ofList_toList] at hspells
  exact hspells

/-! ## Numbers -/

theorem exponentLength_eq_zero (hrest : ∀ c ∈ rest.head?, c ≠ 'e' ∧ c ≠ 'E') : exponentLength rest = 0 := by
  cases rest with
  | nil => rfl
  | cons c cs =>
    obtain ⟨hlower, hupper⟩ := hrest c rfl
    simp [exponentLength, hlower, hupper]

theorem exponentLength_of_ends (hrest : Ends rest) : exponentLength rest = 0 := by
  refine exponentLength_eq_zero fun c hc => ?_
  have hname := (hrest c hc).1
  constructor
  · rintro rfl
    cases hname
  · rintro rfl
    cases hname

theorem isMantissa_iff : isMantissa c = true ↔ isDigit c = true ∨ c = '.' := by
  rw [isMantissa, Bool.or_eq_true, beq_iff_eq]

theorem isBlank_of_isMantissa (h : isMantissa c = true) : Text.isBlank c = false := by
  rcases isMantissa_iff.1 h with hdigit | rfl
  · exact isBlank_of_isNameChar (by simp [isNameChar, hdigit])
  · rfl

/-- digits and points that denote a number are cut off in front of anything that ends them -/
theorem cuts_number {text : String} (hne : text.toList ≠ []) (hchars : ∀ c ∈ text.toList, isMantissa c = true)
    (hread : (Decimal.read? text).isSome = true) : Cuts words text.toList [⟨.number, text⟩] := by
  intro rest ls' hrest hs
  obtain ⟨c, cs, htext⟩ := List.exists_cons_of_ne_nil hne
  rw [htext] at hchars ⊢
  have hc := hchars c List.mem_cons_self
  have htake : (c :: cs ++ rest).takeWhile isMantissa = c :: cs := by
    refine takeWhile_append_of_ends (fun b hb => ?_) hchars hrest
    exact (isMantissa_iff.1 hb).imp_left fun hdigit => by simp [isNameChar, hdigit]
  have hlength : numberLength (c :: cs ++ rest) = (c :: cs).length := by
    simp only [numberLength, htake, List.drop_left, exponentLength_of_ends hrest, Nat.add_zero]
  have hextent : extent? words c (cs ++ rest) = some (.number, cs.length + 1) := by
    rw [extent_of_isMantissa hc, ← List.cons_append, hlength, List.length_cons]
  have htext' : String.ofList (c :: cs) = text := by rw [← htext, String.ofList_toList]
  have hspells := Spells.lexeme (isBlank_of_isMantissa hc) hextent (fun _ => by rwa [htext']) hs
  rwa [htext'] at hspells

end

end ComplexFormula

/-
Which literals denote a number. A literal is a run of digits and points with an exponent behind it or nothing; the run
decides alone: it needs a digit and may have one point.

- `IsRun`, `IsExponent`, `IsExponentPart`: the two parts of a literal.
- `IsMalformed`: a run without a digit or with several points.
- `IsRun.cases`: digits, digits around one point, or more than one point.
- `isSome_ofChars?_digits`, `isSome_ofChars?_point_iff`: digits, and digits around a point, in front of an exponent.
- `isSome_read?_iff`: **a literal denotes a number** unless its run is malformed.
-/
import ComplexFormula.Proofs.Decimal.Reading

namespace ComplexFormula.Decimal

/-! ## Parts of a literal -/

/-- nothing but digits and points -/
def IsRun (cs : List Char) : Prop := ∀ c ∈ cs, isDigit c = true ∨ c = '.'

/-- the letter of an exponent, a sign that may be missing, and digits -/
inductive IsExponent : List Char → Prop where
  | mk {letter : Char} {sign digits : List Char} (hletter : letter = 'e' ∨ letter = 'E')
      (hsign : sign = [] ∨ sign = ['+'] ∨ sign = ['-']) (hne : digits ≠ []) (hdigits : ∀ c ∈ digits, isDigit c = true) :
      IsExponent (letter :: (sign ++ digits))

/-- an exponent or nothing -/
def IsExponentPart (cs : List Char) : Prop := cs = [] ∨ IsExponent cs

/-- no digit, or more than one point -/
def IsMalformed (run : List Char) : Prop := (∀ c ∈ run, isDigit c = false) ∨ 1 < run.count '.'

instance (run : List Char) : Decidable (IsMalformed run) :=
  decidable_of_iff (run.all (fun c => !isDigit c) = true ∨ 1 < run.count '.') (by simp [IsMalformed])

section

variable {cs run whole fraction tail : List Char}

/-- digits up to the end or up to the first point -/
theorem IsRun.digits_or_point (h : IsRun run) : (∀ c ∈ run, isDigit c = true) ∨
    ∃ whole rest, run = whole ++ '.' :: rest ∧ (∀ c ∈ whole, isDigit c = true) ∧ IsRun rest := by
  induction run with
  | nil => exact .inl (List.forall_mem_nil _)
  | cons c cs ih =>
    obtain ⟨hc, hcs⟩ := List.forall_mem_cons.1 h
    rcases hc with hc | rfl
    · rcases ih hcs with hdigits | ⟨whole, rest, rfl, hwhole, hrest⟩
      · exact .inl (List.forall_mem_cons.2 ⟨hc, hdigits⟩)
      · exact .inr ⟨c :: whole, rest, rfl, List.forall_mem_cons.2 ⟨hc, hwhole⟩, hrest⟩
    · exact .inr ⟨[], cs, rfl, List.forall_mem_nil _, hcs⟩

/-- **A run** is digits, digits around one point, or has a second point behind these. -/
theorem IsRun.cases (h : IsRun run) : (∀ c ∈ run, isDigit c = true) ∨
    ∃ whole fraction, (∀ c ∈ whole, isDigit c = true) ∧ (∀ c ∈ fraction, isDigit c = true) ∧
      (run = whole ++ '.' :: fraction ∨ ∃ rest, run = whole ++ '.' :: (fraction ++ '.' :: rest)) := by
  rcases h.digits_or_point with hdigits | ⟨whole, rest, rfl, hwhole, hrest⟩
  · exact .inl hdigits
  · rcases hrest.digits_or_point with hdigits | ⟨fraction, rest, rfl, hfraction, -⟩
    · exact .inr ⟨whole, rest, hwhole, hdigits, .inl rfl⟩
    · exact .inr ⟨whole, fraction, hwhole, hfraction, .inr ⟨rest, rfl⟩⟩

theorem not_mem_of_digits (h : ∀ c ∈ cs, isDigit c = true) : '.' ∉ cs := fun hmem => absurd (h '.' hmem) (by decide)

/-- of digits around one point, at least one has to be there -/
theorem isMalformed_point_iff (hwhole : ∀ c ∈ whole, isDigit c = true) (hfraction : ∀ c ∈ fraction, isDigit c = true) :
    IsMalformed (whole ++ '.' :: fraction) ↔ whole = [] ∧ fraction = [] := by
  have hcount : (whole ++ '.' :: fraction).count '.' = 1 := by
    rw [List.count_append, List.count_cons_self, List.count_eq_zero.2 (not_mem_of_digits hwhole),
      List.count_eq_zero.2 (not_mem_of_digits hfraction)]
  rw [IsMalformed, hcount, or_iff_left (Nat.lt_irrefl 1)]
  constructor
  · intro hnone
    refine ⟨List.eq_nil_iff_forall_not_mem.2 fun c hc => ?_, List.eq_nil_iff_forall_not_mem.2 fun c hc => ?_⟩
    · exact Bool.false_ne_true ((hnone c (List.mem_append_left _ hc)).symm.trans (hwhole c hc))
    · have hmem : c ∈ whole ++ '.' :: fraction := List.mem_append_right _ (List.mem_cons_of_mem _ hc)
      exact Bool.false_ne_true ((hnone c hmem).symm.trans (hfraction c hc))
  · rintro ⟨rfl, rfl⟩
    exact List.forall_mem_singleton.2 rfl

theorem isMalformed_points (whole fraction rest : List Char) :
    IsMalformed (whole ++ '.' :: (fraction ++ '.' :: rest)) := by
  refine .inr ?_
  simp only [List.count_append, List.count_cons_self]
  omega

/-! ## Reading -/

/-- a digit is no sign -/
theorem ne_sign_of_isDigit {c : Char} (h : isDigit c = true) : c ≠ '+' ∧ c ≠ '-' := by
  constructor <;> rintro rfl <;> exact absurd h (by decide)

theorem isSome_powerOf? (h : IsExponentPart cs) : (powerOf? cs).isSome = true := by
  rcases h with rfl | h
  · rfl
  · cases h with
    | @mk letter sign digits hletter hsign hne hdigits =>
      have hsplit : ∃ negative, splitSign (sign ++ digits) = (negative, digits) := by
        rcases hsign with rfl | rfl | rfl
        · obtain ⟨d, ds, rfl⟩ := List.exists_cons_of_ne_nil hne
          obtain ⟨hplus, hminus⟩ := ne_sign_of_isDigit (hdigits d List.mem_cons_self)
          refine ⟨false, splitSign.eq_3 _ ?_ ?_⟩
          · exact fun _ heq => hminus (List.cons.inj heq).1
          · exact fun _ heq => hplus (List.cons.inj heq).1
        · exact ⟨false, rfl⟩
        · exact ⟨true, rfl⟩
      obtain ⟨negative, hsplit⟩ := hsplit
      simp only [powerOf?, hsplit]
      rw [if_pos ⟨hletter, hne, List.all_eq_true.2 hdigits⟩]
      rfl

/-- neither a digit nor a point begins an exponent -/
theorem IsExponentPart.head? (h : IsExponentPart cs) : ∀ c ∈ cs.head?, isDigit c = false ∧ c ≠ '.' := by
  rcases h with rfl | h
  · simp
  · cases h with
    | mk hletter =>
      rintro c ⟨⟩
      rcases hletter with rfl | rfl <;> decide

theorem splitFraction_of_head? (htail : ∀ c ∈ tail.head?, c ≠ '.') : splitFraction tail = ([], tail) := by
  rw [splitFraction.eq_2]
  rintro cs rfl
  exact htail '.' rfl rfl

/-- digits without a point are read up to the exponent -/
theorem isSome_ofChars?_digits (hwhole : ∀ c ∈ whole, isDigit c = true) (hne : whole ≠ [])
    (htail : IsExponentPart tail) : (Numeral.ofChars? (whole ++ tail)).isSome = true := by
  obtain ⟨htake, hdrop⟩ := digits_append hwhole fun c hc => (htail.head? c hc).1
  simp only [Numeral.ofChars?, htake, hdrop, splitFraction_of_head? fun c hc => (htail.head? c hc).2, hne, false_and,
    if_false, Option.isSome_map, isSome_powerOf? htail]

/-- digits around a point are read up to where the exponent has to begin -/
theorem isSome_ofChars?_point_iff (hwhole : ∀ c ∈ whole, isDigit c = true)
    (hfraction : ∀ c ∈ fraction, isDigit c = true) (htail : ∀ c ∈ tail.head?, isDigit c = false) :
    (Numeral.ofChars? (whole ++ '.' :: (fraction ++ tail))).isSome = true ↔
      ¬(whole = [] ∧ fraction = []) ∧ (powerOf? tail).isSome = true := by
  obtain ⟨htake, hdrop⟩ := digits_append hwhole (isDigit_of_point (fraction ++ tail))
  obtain ⟨htake', hdrop'⟩ := digits_append hfraction htail
  simp only [Numeral.ofChars?, htake, hdrop, splitFraction, htake', hdrop']
  split
  case isTrue hnone => simp [hnone]
  case isFalse hsome => simp [hsome]

/-- **A literal denotes a number** exactly if its run has a digit and at most one point. -/
theorem isSome_read?_iff {exponent : List Char} (hrun : IsRun run) (hne : run ≠ [])
    (hexponent : IsExponentPart exponent) : (read? (.ofList (run ++ exponent))).isSome = true ↔ ¬IsMalformed run := by
  obtain ⟨c, cs, hcs⟩ := List.exists_cons_of_ne_nil hne
  have htext : (String.ofList (run ++ exponent)).toList = c :: (cs ++ exponent) := by simp [hcs]
  have hc : isDigit c = true ∨ c = '.' := hrun c (hcs ▸ List.mem_cons_self)
  have hfew : ∀ d ∈ exponent.head?, isDigit d = false := fun d hd => (hexponent.head? d hd).1
  rw [read?_of_head htext hc, Option.isSome_map, ← List.cons_append, ← hcs]
  rcases hrun.cases with hdigits | ⟨whole, fraction, hwhole, hfraction, rfl | ⟨rest, rfl⟩⟩
  · refine iff_of_true (isSome_ofChars?_digits hdigits hne hexponent) ?_
    rintro (hnone | hpoints)
    · exact Bool.false_ne_true ((hnone c (hcs ▸ List.mem_cons_self)).symm.trans (hdigits c (hcs ▸ List.mem_cons_self)))
    · rw [List.count_eq_zero.2 (not_mem_of_digits hdigits)] at hpoints
      exact absurd hpoints (by decide)
  · rw [List.append_assoc, List.cons_append, isSome_ofChars?_point_iff hwhole hfraction hfew,
      isMalformed_point_iff hwhole hfraction, and_iff_left (isSome_powerOf? hexponent)]
  · -- what stands behind the digits begins with a point, and so it is no exponent
    have hnone : (powerOf? ('.' :: (rest ++ exponent))).isSome = false := by simp [powerOf?]
    rw [List.append_assoc, List.cons_append, List.append_assoc, List.cons_append,
      isSome_ofChars?_point_iff hwhole hfraction (isDigit_of_point _), hnone]
    exact iff_of_false (fun h => Bool.false_ne_true h.2) (not_not_intro (isMalformed_points whole fraction rest))

/-- a point may stand at either end, but not alone and not twice -/
example : IsMalformed ".".toList ∧ ¬IsMalformed "1.".toList ∧ ¬IsMalformed ".5".toList ∧ IsMalformed "1.2.".toList := by
  decide

end

end ComplexFormula.Decimal

/-
Numbers are read as they were written. A text is rounded to the number that its exact value rounds to, and the shortest
decimal of a number, written out, rounds to the number.

- `nearestDecimal_eq`: digits are rounded to the number that their value rounds to.
- `read?_of_head`: a text that begins with a digit or a point has no sign and is no word.
- `exists_numeral_of_text`: the text of a number is a numeral that denotes it.
- `read?_text`: **round trip**.
-/
import ComplexFormula.Proofs.Decimal.Digits
import ComplexFormula.Proofs.Decimal.Shortest

namespace ComplexFormula.Decimal

open Binary64

/-! ## Rounding of digits -/

section

variable {m n d : Nat} {q power : Int} {v : Rat} {ds : List Char} {negative : Bool}

/-- a quotient and whether something is left of it -/
theorem approximates_div (hd : 0 < d) : Approximates (n / d) (n / d * d != n) (n / d) := by
  have hpos : (0 : Rat) < d := by exact_mod_cast hd
  have hle : n / d * d ≤ n := Nat.div_mul_le_self n d
  have hlt : n < (n / d + 1) * d := by
    rw [Nat.succ_mul, Nat.mul_comm (n / d)]
    have := Nat.div_add_mod n d
    have := Nat.mod_lt n hd
    omega
  cases hrest : n / d * d != n with
  | false =>
    have hexact : n / d * d = n := by simpa using hrest
    refine (div_eq_iff hpos.ne').2 ?_
    exact_mod_cast hexact.symm
  | true =>
    have hinexact : n / d * d ≠ n := by simpa using hrest
    refine ⟨(lt_div_iff₀ hpos).2 ?_, (div_lt_iff₀ hpos).2 ?_⟩
    · exact_mod_cast lt_of_le_of_ne hle hinexact
    · exact_mod_cast hlt

/-- the quotient of a decimal fraction has enough bits -/
theorem le_quotient (hn : 0 < n) (hd : 0 < d) : 2 ^ 55 ≤ (n <<< (d.log2 + 66 - n.log2)) / d := by
  rw [Nat.le_div_iff_mul_le hd, Nat.shiftLeft_eq]
  calc 2 ^ 55 * d ≤ 2 ^ 55 * 2 ^ (d.log2 + 1) := Nat.mul_le_mul_left _ Nat.lt_log2_self.le
    _ = 2 ^ (d.log2 + 56) := by rw [← Nat.pow_add]; congr 1; omega
    _ ≤ 2 ^ (n.log2 + (d.log2 + 66 - n.log2)) := Nat.pow_le_pow_right (by decide) (by omega)
    _ = 2 ^ n.log2 * 2 ^ (d.log2 + 66 - n.log2) := Nat.pow_add _ _ _
    _ ≤ n * 2 ^ (d.log2 + 66 - n.log2) := Nat.mul_le_mul_right _ (Nat.log2_self_le hn.ne')

/-- the first power of two that overflows -/
theorem two_zpow_le_ten_zpow : (2 : Rat) ^ (1024 : Int) ≤ 10 ^ (309 : Int) := by
  have hnat : 2 ^ 1024 ≤ 10 ^ 309 := by decide +kernel
  rw [zpow_ofNat, zpow_ofNat]
  exact_mod_cast hnat

/-- half of the least number -/
theorem ten_zpow_le_two_zpow : (10 : Rat) ^ (-331 : Int) ≤ 2 ^ (-1075 : Int) := by
  have hnat : 2 ^ 1075 ≤ 10 ^ 331 := by decide +kernel
  rw [zpow_neg, zpow_neg, zpow_ofNat, zpow_ofNat]
  refine inv_anti₀ (by positivity) ?_
  exact_mod_cast hnat

/-- a value that rounds to a number is at least half of the least one -/
theorem two_zpow_le_of_roundsTo (hc : Canonical m q) (hm : 0 < m) (h : RoundsTo m q v) :
    (2 : Rat) ^ (-1075 : Int) ≤ v := by
  have hone : (1 : Rat) ≤ m := by exact_mod_cast hm
  have hunit : (2 : Rat) ^ (-1074 : Int) ≤ 2 ^ q := zpow_le_zpow_right₀ (by norm_num) hc.least
  calc (2 : Rat) ^ (-1075 : Int) = 1 / 2 * 2 ^ (-1074 : Int) := by
        rw [show (-1075 : Int) = -1 + -1074 by decide, zpow_add₀ (by norm_num)]
        norm_num
    _ ≤ m / 2 * 2 ^ q := mul_le_mul (by linarith) hunit (by positivity) (by linarith)
    _ ≤ v := h.ge hm

/-- a value that rounds to a number does not overflow -/
theorem lt_two_zpow_of_roundsTo (hc : Canonical m q) (h : RoundsTo m q v) : v < 2 ^ (1024 : Int) := by
  have hgreatest := hc.greatest
  exact (h.lt hc).trans_le (zpow_le_zpow_right₀ (by norm_num) (by omega))

theorem lt_ten_zpow (hdigits : ∀ c ∈ ds, isDigit c = true) :
    (valueOf ds : Rat) * 10 ^ power < 10 ^ ((significant ds).length + power) := by
  have hlast : (valueOf ds : Rat) < 10 ^ ((significant ds).length : Int) := by
    rw [zpow_natCast]
    exact_mod_cast lt_significant hdigits
  rw [zpow_add₀ (by norm_num)]
  exact mul_lt_mul_of_pos_right hlast (by positivity)

theorem ten_zpow_le (hdigits : ∀ c ∈ ds, isDigit c = true) (hpos : 0 < valueOf ds) :
    (10 : Rat) ^ ((significant ds).length - 1 + power) ≤ valueOf ds * 10 ^ power := by
  obtain ⟨hlength, hfirst⟩ := le_significant hdigits hpos
  have hfirst : (10 : Rat) ^ (((significant ds).length : Int) - 1) ≤ valueOf ds := by
    have hcast : ((significant ds).length : Int) - 1 = ((significant ds).length - 1 : Nat) := by omega
    rw [hcast, zpow_natCast]
    exact_mod_cast hfirst
  rw [zpow_add₀ (by norm_num)]
  exact mul_le_mul_of_nonneg_right hfirst (by positivity)

/-- the digits of a value that rounds to a number are neither too many nor too few to be read -/
theorem size_bounds (hc : Canonical m q) (hm : 0 < m) (hdigits : ∀ c ∈ ds, isDigit c = true)
    (h : RoundsTo m q (valueOf ds * 10 ^ power)) :
    0 < valueOf ds ∧ -330 ≤ (significant ds).length + power ∧ (significant ds).length + power ≤ 310 := by
  have hlow := two_zpow_le_of_roundsTo hc hm h
  have hpos : 0 < valueOf ds := by
    rcases Nat.eq_zero_or_pos (valueOf ds) with hzero | hpos
    · rw [hzero, Nat.cast_zero, zero_mul] at hlow
      exact absurd hlow (not_le_of_gt (by positivity))
    · exact hpos
  refine ⟨hpos, ?_, ?_⟩
  · have hbelow : (10 : Rat) ^ (-331 : Int) < 10 ^ ((significant ds).length + power) :=
      calc (10 : Rat) ^ (-331 : Int) ≤ 2 ^ (-1075 : Int) := ten_zpow_le_two_zpow
        _ ≤ valueOf ds * 10 ^ power := hlow
        _ < 10 ^ ((significant ds).length + power) := lt_ten_zpow hdigits
    have := (zpow_lt_zpow_iff_right₀ (by norm_num)).1 hbelow
    omega
  · have habove : (10 : Rat) ^ ((significant ds).length - 1 + power) < 10 ^ (309 : Int) :=
      calc (10 : Rat) ^ ((significant ds).length - 1 + power) ≤ valueOf ds * 10 ^ power := ten_zpow_le hdigits hpos
        _ < 2 ^ (1024 : Int) := lt_two_zpow_of_roundsTo hc h
        _ ≤ 10 ^ (309 : Int) := two_zpow_le_ten_zpow
    have := (zpow_lt_zpow_iff_right₀ (by norm_num)).1 habove
    omega

/-- **Digits are rounded to the number that their value rounds to**, unless they reach so far behind the point that they
are not all read. -/
theorem nearestDecimal_eq (hc : Canonical m q) (hm : 0 < m) (hdigits : ∀ c ∈ ds, isDigit c = true)
    (hpower : -342 ≤ power) (h : RoundsTo m q (valueOf ds * 10 ^ power)) :
    nearestDecimal negative ds power = ofSignAndMagnitude negative (place m q) := by
  obtain ⟨hpos, hlow, hhigh⟩ := size_bounds hc hm hdigits h
  have hne : significant ds ≠ [] := by
    intro hnil
    have := (le_significant hdigits hpos).1
    rw [hnil] at this
    exact absurd this (Nat.lt_irrefl 0)
  have hlength : (significant ds).length ≤ digitLimit := by
    rw [digitLimit]
    omega
  have hdrop : ds.dropWhile (· = '0') = significant ds := rfl
  simp only [nearestDecimal, hdrop, Nat.pow_eq]
  rw [if_neg (by simp only [hne, false_or]; omega), if_neg (by omega), List.take_of_length_le hlength,
    List.drop_of_length_le hlength, valueOf_significant]
  simp only [List.any_nil, List.length_nil, Nat.cast_zero, add_zero, Bool.false_or]
  split
  · next hp =>
    refine nearest_eq negative hc (by positivity) (fun hrest => absurd hrest (by decide)) ?_ h
    simp only [Approximates, Bool.false_eq_true, if_false, zpow_zero, div_one]
    push_cast
    rw [pow_toNat hp]
  · next hp =>
    set scale : Nat := 10 ^ (-power).toNat with hscale
    have hspos : 0 < scale := Nat.pow_pos (by decide)
    have hbits := le_quotient hpos hspos
    refine nearest_eq negative hc (by omega) (fun _ => hbits) ?_ h
    have hvalue : (valueOf ds : Rat) * 10 ^ power / 2 ^ (-((scale.log2 + 66 - (valueOf ds).log2 : Nat) : Int)) =
        (valueOf ds <<< (scale.log2 + 66 - (valueOf ds).log2) : Nat) / (scale : Nat) := by
      rw [Nat.shiftLeft_eq, hscale]
      push_cast
      rw [pow_toNat (by omega), zpow_neg, zpow_neg, zpow_natCast]
      field_simp
    rw [hvalue]
    exact approximates_div hspos

end

/-! ## Texts of numbers -/

section

variable {s : String} {x : Binary64} {c : Char} {cs : List Char}

/-- neither a sign nor the first letter of a word is a digit or a point -/
theorem toNat_le_of_digit_or_point (h : isDigit c = true ∨ c = '.') : 46 ≤ c.toNat ∧ c.toNat ≤ 57 := by
  rcases h with h | rfl
  · simp only [isDigit, Bool.and_eq_true, decide_eq_true_eq, Char.le_def, UInt32.le_iff_toNat_le] at h
    have hbounds : 48 ≤ c.toNat ∧ c.toNat ≤ 57 := h
    omega
  · decide

/-- **A text that begins with a digit or a point** is read as a number without a sign. -/
theorem read?_of_head (htext : s.toList = c :: cs) (h : isDigit c = true ∨ c = '.') :
    read? s = (Numeral.ofChars? (c :: cs)).map (·.toBinary64 false) := by
  obtain ⟨hlow, hhigh⟩ := toNat_le_of_digit_or_point h
  have hne : ∀ d : Char, d.toNat < 46 ∨ 57 < d.toNat → c ≠ d := by
    rintro d hd rfl
    omega
  have hsign : splitSign (c :: cs) = (false, c :: cs) := by
    rw [splitSign.eq_3]
    · rintro ds heq
      exact hne '-' (by decide) (List.cons.inj heq).1
    · rintro ds heq
      exact hne '+' (by decide) (List.cons.inj heq).1
  have hlower : c.toLower = c := by
    apply dif_neg
    rintro ⟨hupper, -⟩
    have : 65 ≤ c.toNat := UInt32.le_iff_toNat_le.1 hupper
    omega
  have hspecial : special? false (c :: cs) = none := by
    have hi : c ≠ 'i' := hne 'i' (by decide)
    have hn : c ≠ 'n' := hne 'n' (by decide)
    simp [special?, hlower, hi, hn]
  simp only [read?, htext, hsign, hspecial]

/-- digits are rounded once, with the sign that is given -/
theorem exists_nearest (negative : Bool) (ds : List Char) (power : Int) :
    ∃ n e rest, nearestDecimal negative ds power = nearest negative n e rest := by
  simp only [nearestDecimal]
  split
  · exact ⟨_, _, _, rfl⟩
  · split
    · exact ⟨_, _, _, rfl⟩
    · split
      · exact ⟨_, _, _, rfl⟩
      · exact ⟨_, _, _, rfl⟩

/-- what begins with a digit or a point is read as a number that is neither negative nor NaN -/
theorem isNegative_isNaN_of_read? (h : read? s = some x) (htext : s.toList = c :: cs)
    (hc : isDigit c = true ∨ c = '.') : x.isNegative = false ∧ x.isNaN = false := by
  rw [read?_of_head htext hc] at h
  obtain ⟨n, -, rfl⟩ := Option.map_eq_some_iff.1 h
  obtain ⟨m, e, rest, hnearest⟩ := exists_nearest false (n.whole ++ n.fraction) (n.power - n.fraction.length)
  rw [Numeral.toBinary64, hnearest]
  exact ⟨isNegative_nearest false m e rest, isNaN_nearest false m e rest⟩

/-- **The text of a number is a numeral that denotes it**, for all finite numbers without a sign. -/
theorem exists_numeral_of_text (hfinite : x.isFinite = true) (hsign : x.isNegative = false) :
    ∃ n : Numeral, n.Positional ∧ (text x).toList = n.written ∧ n.toBinary64 false = x := by
  obtain ⟨m, q, hparts, hc, hplace⟩ := exists_parts hfinite
  have hx : ofSignAndMagnitude false (place m q) = x := by
    rw [hplace, ← hsign, ofSignAndMagnitude_self]
  have hchars : (text x).toList = Decimal.magnitude m q := by
    simp only [text, chars, hparts, hsign, signed, Bool.false_eq_true, if_false, String.toList_ofList]
  rw [hchars, Decimal.magnitude]
  by_cases hm : m = 0
  · subst hm
    have hq : q = leastExponent := by
      by_contra hne
      have hnormal := hc.normal (lt_of_le_of_ne hc.least (Ne.symm hne))
      exact absurd hnormal (by decide)
    subst hq
    refine ⟨⟨['0'], [], 0⟩, ⟨List.cons_ne_nil _ _, List.all_eq_true.1 (by decide), rfl⟩, rfl, ?_⟩
    rw [← hx]
    rfl
  · rw [if_neg hm]
    obtain ⟨hrounds, hpower⟩ := roundsTo_shortest hc (Nat.pos_of_ne_zero hm)
    obtain ⟨n, hn, hlength, hvalue, htext⟩ := exists_numeral (shortest m q).1 (shortest m q).2
    refine ⟨n, hn, htext, ?_⟩
    have hexact : (valueOf (n.whole ++ n.fraction) : Rat) * 10 ^ (n.power - n.fraction.length) =
        (shortest m q).1 * 10 ^ (shortest m q).2 := by
      rw [hvalue, hn.power, hlength, zero_sub]
      push_cast
      rw [pow_toNat_eq (by norm_num) (shortest m q).2, zpow_neg, zpow_natCast]
      field_simp
    rw [Numeral.toBinary64, nearestDecimal_eq hc (Nat.pos_of_ne_zero hm) hn.digits ?_ (hexact ▸ hrounds), hx]
    rw [hn.power, hlength]
    omega

/-- **Round trip.** A finite number without a sign is read again from its text. -/
theorem read?_text (hfinite : x.isFinite = true) (hsign : x.isNegative = false) : read? (text x) = some x := by
  obtain ⟨n, hn, htext, hx⟩ := exists_numeral_of_text hfinite hsign
  obtain ⟨c, cs, hcs, hdigit⟩ := hn.exists_cons
  rw [read?_of_head (htext.trans hcs) (.inl hdigit), ← hcs, hn.ofChars?_written, Option.map_some, hx]

end

end ComplexFormula.Decimal

/-
Decimal digits: the digits of a whole number denote that number, zeros in front of them and behind them do what they
should, and a number written out positionally is read as digits around a point with its value.

- `exists_digits`: the digits of a number, and what they denote.
- `lt_significant`, `le_significant`: a number lies between two powers of ten by its length.
- `Numeral.Positional`: digits around a point, with no exponent.
- `exists_numeral`, `Numeral.Positional.ofChars?_written`: **positional texts** are read as digits with the value that
  was written.
-/
import ComplexFormula.Decimal.Notation
import ComplexFormula.Decimal.Reading
import Mathlib.Data.List.Induction
import Mathlib.Data.List.TakeWhile
import Mathlib.Tactic.Ring

namespace ComplexFormula.Decimal

/-! ## Digits of a number -/

theorem digitValue_digitChar {n : Nat} (h : n < 10) : digitValue (digitChar n) = n := by
  revert n; decide

theorem isDigit_digitChar {n : Nat} (h : n < 10) : isDigit (digitChar n) = true := by
  revert n; decide

theorem digitValue_lt {c : Char} (h : isDigit c = true) : digitValue c < 10 := by
  simp only [isDigit, Bool.and_eq_true, decide_eq_true_eq, Char.le_def, UInt32.le_iff_toNat_le] at h
  have hbounds : 48 ≤ c.toNat ∧ c.toNat ≤ 57 := h
  have hzero : '0'.toNat = 48 := rfl
  rw [digitValue, hzero]
  omega

theorem eq_zero_of_digitValue {c : Char} (h : isDigit c = true) (hzero : digitValue c = 0) : c = '0' := by
  simp only [isDigit, Bool.and_eq_true, decide_eq_true_eq, Char.le_def, UInt32.le_iff_toNat_le] at h
  have hbounds : 48 ≤ c.toNat ∧ c.toNat ≤ 57 := h
  apply Char.toNat_inj.1
  have hchar : '0'.toNat = 48 := rfl
  rw [digitValue, hchar] at hzero
  omega

theorem valueOf_append_singleton (ds : List Char) (c : Char) :
    valueOf (ds ++ [c]) = 10 * valueOf ds + digitValue c := by
  simp [valueOf]

theorem valueOf_cons (c : Char) (ds : List Char) :
    valueOf (c :: ds) = digitValue c * 10 ^ ds.length + valueOf ds := by
  induction ds using List.reverseRecOn with
  | nil => simp [valueOf]
  | append_singleton ds d ih =>
    rw [← List.cons_append, valueOf_append_singleton, valueOf_append_singleton, ih, List.length_append,
      List.length_singleton, Nat.pow_succ]
    ring

theorem valueOf_append_zeros (ds : List Char) (n : Nat) :
    valueOf (ds ++ .replicate n '0') = valueOf ds * 10 ^ n := by
  induction n with
  | zero => simp
  | succ n ih =>
    rw [List.replicate_succ', ← List.append_assoc, valueOf_append_singleton, ih, Nat.pow_succ]
    have hzero : digitValue '0' = 0 := rfl
    rw [hzero]
    ring

theorem valueOf_zeros_append (n : Nat) (ds : List Char) : valueOf (.replicate n '0' ++ ds) = valueOf ds := by
  induction n with
  | zero => rfl
  | succ n ih =>
    have hzero : digitValue '0' = 0 := rfl
    rw [List.replicate_succ, List.cons_append, valueOf_cons, ih, hzero, Nat.zero_mul, Nat.zero_add]

/-- the digits of n stand in front of the tail, and denote n -/
theorem exists_digitsOnto {fuel n : Nat} (h : n < 10 ^ fuel) (tail : List Char) (hfuel : 0 < fuel) :
    ∃ ds, digitsOnto fuel n tail = ds ++ tail ∧ ds ≠ [] ∧ (∀ c ∈ ds, isDigit c = true) ∧ valueOf ds = n := by
  induction fuel generalizing n tail with
  | zero => exact absurd hfuel (Nat.lt_irrefl 0)
  | succ fuel ih =>
    have hlast : n % 10 < 10 := Nat.mod_lt n (by decide)
    rw [digitsOnto]
    by_cases hn : n < 10
    · refine ⟨[digitChar n], by simp [hn, Nat.mod_eq_of_lt hn], by simp, ?_, ?_⟩
      · simpa using isDigit_digitChar hn
      · simpa [valueOf] using digitValue_digitChar hn
    · have hpow : n / 10 < 10 ^ fuel := by
        rw [Nat.pow_succ] at h
        omega
      have hpos : 0 < fuel := by
        rcases Nat.eq_zero_or_pos fuel with rfl | hpos
        · omega
        · exact hpos
      obtain ⟨ds, hds, -, hdigits, hvalue⟩ := ih hpow (digitChar (n % 10) :: tail) hpos
      refine ⟨ds ++ [digitChar (n % 10)], by simp [hn, hds], by simp, ?_, ?_⟩
      · intro c hc
        rcases List.mem_append.1 hc with hc | hc
        · exact hdigits c hc
        · rw [List.mem_singleton.1 hc]
          exact isDigit_digitChar hlast
      · rw [valueOf_append_singleton, hvalue, digitValue_digitChar hlast]
        omega

/-- the digits of n are digits, and denote n -/
theorem exists_digits (n : Nat) : digits n ≠ [] ∧ (∀ c ∈ digits n, isDigit c = true) ∧ valueOf (digits n) = n := by
  have hpow : n < 10 ^ (n.log2 + 1) :=
    Nat.lt_of_lt_of_le Nat.lt_log2_self (Nat.pow_le_pow_left (by decide) _)
  obtain ⟨ds, hds, hne, hdigits, hvalue⟩ := exists_digitsOnto hpow [] (Nat.succ_pos _)
  rw [List.append_nil] at hds
  rw [digits, hds]
  exact ⟨hne, hdigits, hvalue⟩

/-! ## Significant digits -/

/-- the digits without the zeros in front -/
def significant (ds : List Char) : List Char := ds.dropWhile (· = '0')

theorem isDigit_of_mem_significant {ds : List Char} (h : ∀ c ∈ ds, isDigit c = true) :
    ∀ c ∈ significant ds, isDigit c = true :=
  fun c hc => h c ((List.dropWhile_sublist _).subset hc)

theorem valueOf_significant (ds : List Char) : valueOf (significant ds) = valueOf ds := by
  induction ds with
  | nil => rfl
  | cons c ds ih =>
    rw [significant, List.dropWhile_cons]
    split
    · next hc =>
      have hzero : digitValue c = 0 := by rw [of_decide_eq_true hc]; rfl
      rw [valueOf_cons, hzero, Nat.zero_mul, Nat.zero_add]
      exact ih
    · rfl

theorem valueOf_lt {ds : List Char} (h : ∀ c ∈ ds, isDigit c = true) : valueOf ds < 10 ^ ds.length := by
  induction ds with
  | nil => decide
  | cons c ds ih =>
    have hc := digitValue_lt (h c List.mem_cons_self)
    have htail := ih fun d hd => h d (List.mem_cons_of_mem c hd)
    rw [valueOf_cons, List.length_cons, Nat.pow_succ]
    calc digitValue c * 10 ^ ds.length + valueOf ds
        < digitValue c * 10 ^ ds.length + 10 ^ ds.length := by omega
      _ = (digitValue c + 1) * 10 ^ ds.length := by ring
      _ ≤ 10 * 10 ^ ds.length := Nat.mul_le_mul_right _ hc
      _ = 10 ^ ds.length * 10 := Nat.mul_comm _ _

/-- a number is below the power of ten of its length -/
theorem lt_significant {ds : List Char} (h : ∀ c ∈ ds, isDigit c = true) :
    valueOf ds < 10 ^ (significant ds).length := by
  rw [← valueOf_significant]
  exact valueOf_lt (isDigit_of_mem_significant h)

/-- a number other than zero has a first digit, which is not zero -/
theorem le_significant {ds : List Char} (h : ∀ c ∈ ds, isDigit c = true) (hpos : 0 < valueOf ds) :
    0 < (significant ds).length ∧ 10 ^ ((significant ds).length - 1) ≤ valueOf ds := by
  rw [← valueOf_significant] at hpos ⊢
  have hdigits := isDigit_of_mem_significant h
  have hfirst : ∀ c ∈ (significant ds).head?, c ≠ '0' := by
    intro c hc hzero
    have hnot := List.head?_dropWhile_not (p := (· = '0')) ds
    rw [significant] at hc
    simp [Option.mem_def.1 hc, hzero] at hnot
  generalize significant ds = ss at hpos hdigits hfirst ⊢
  cases ss with
  | nil => exact absurd hpos (by decide)
  | cons c ss =>
    have hne : digitValue c ≠ 0 := fun hzero =>
      hfirst c rfl (eq_zero_of_digitValue (hdigits c List.mem_cons_self) hzero)
    refine ⟨Nat.succ_pos _, ?_⟩
    rw [valueOf_cons, List.length_cons, Nat.add_sub_cancel]
    have hle := Nat.mul_le_mul_right (10 ^ ss.length) (Nat.one_le_iff_ne_zero.2 hne)
    omega

/-! ## Positional texts -/

/-- digits end where something else begins -/
theorem digits_append {ds rest : List Char} (hds : ∀ c ∈ ds, isDigit c = true)
    (hrest : ∀ c ∈ rest.head?, isDigit c = false) :
    (ds ++ rest).takeWhile isDigit = ds ∧ (ds ++ rest).dropWhile isDigit = rest := by
  rw [List.takeWhile_append_of_pos hds, List.dropWhile_append_of_pos hds]
  cases rest with
  | nil => simp
  | cons c rest => simp [hrest c rfl]

theorem isDigit_of_point (cs : List Char) : ∀ c ∈ ('.' :: cs).head?, isDigit c = false := by
  rintro c ⟨⟩
  decide

namespace Numeral

/-- digits around a point, at least one in front of it, and no exponent -/
structure Positional (n : Numeral) : Prop where
  whole : n.whole ≠ []
  digits : ∀ c ∈ n.whole ++ n.fraction, isDigit c = true
  power : n.power = 0

/-- the text of the digits; there is no point without a digit behind it -/
def written (n : Numeral) : List Char := n.whole ++ if n.fraction = [] then [] else '.' :: n.fraction

variable {n : Numeral}

theorem Positional.isDigit_whole (h : n.Positional) {c : Char} (hc : c ∈ n.whole) : isDigit c = true :=
  h.digits c (List.mem_append_left _ hc)

theorem Positional.isDigit_fraction (h : n.Positional) {c : Char} (hc : c ∈ n.fraction) : isDigit c = true :=
  h.digits c (List.mem_append_right _ hc)

theorem Positional.exists_cons (h : n.Positional) : ∃ c cs, n.written = c :: cs ∧ isDigit c = true := by
  obtain ⟨c, cs, hcs⟩ := List.exists_cons_of_ne_nil h.whole
  refine ⟨c, _, by rw [written, hcs, List.cons_append], h.isDigit_whole ?_⟩
  rw [hcs]
  exact List.mem_cons_self

theorem Positional.isDigit_or_point (h : n.Positional) {c : Char} (hc : c ∈ n.written) :
    isDigit c = true ∨ c = '.' := by
  rcases List.mem_append.1 hc with hc | hc
  · exact .inl (h.isDigit_whole hc)
  · split at hc
    · cases hc
    · rcases List.mem_cons.1 hc with rfl | hc
      · exact .inr rfl
      · exact .inl (h.isDigit_fraction hc)

/-- **The text is read as the numeral** that was written. -/
theorem Positional.ofChars?_written (h : n.Positional) : ofChars? n.written = some n := by
  obtain ⟨whole, fraction, power⟩ := n
  have hpower : power = 0 := h.power
  have hwhole := fun c (hc : c ∈ whole) => h.isDigit_whole hc
  have hfraction := fun c (hc : c ∈ fraction) => h.isDigit_fraction hc
  have hne : whole ≠ [] := h.whole
  subst hpower
  rw [ofChars?, written]
  dsimp only
  split
  · next hnil =>
    simp [List.takeWhile_eq_self_iff.2 hwhole, List.dropWhile_eq_nil_iff.2 hwhole, splitFraction, powerOf?, hne, hnil]
  · obtain ⟨htake, hdrop⟩ := digits_append hwhole (isDigit_of_point fraction)
    simp [htake, hdrop, splitFraction, List.takeWhile_eq_self_iff.2 hfraction, List.dropWhile_eq_nil_iff.2 hfraction,
      powerOf?, hne]

end Numeral

/-- a number with a point has as many digits behind it as it should -/
theorem exists_withPoint {ds : List Char} (h : ∀ c ∈ ds, isDigit c = true) (places : Nat) :
    ∃ n : Numeral, n.Positional ∧ n.fraction.length = places ∧ valueOf (n.whole ++ n.fraction) = valueOf ds ∧
      withPoint ds places = n.whole ++ '.' :: n.fraction := by
  set filled : List Char := .replicate (places + 1 - ds.length) '0' ++ ds with hfilled
  have hlength : places + 1 ≤ filled.length := by
    rw [hfilled, List.length_append, List.length_replicate]
    omega
  refine ⟨⟨filled.take (filled.length - places), filled.drop (filled.length - places), 0⟩, ⟨?_, ?_, rfl⟩, ?_, ?_, rfl⟩
  · intro hnil
    have hzero := congrArg List.length hnil
    rw [List.length_take, List.length_nil] at hzero
    omega
  · intro c hc
    rw [List.take_append_drop, hfilled] at hc
    rcases List.mem_append.1 hc with hc | hc
    · rw [List.eq_of_mem_replicate hc]
      rfl
    · exact h c hc
  · rw [List.length_drop]
    omega
  · rw [List.take_append_drop, hfilled, valueOf_zeros_append]

/-- **Positional texts.** What is written for c · 10^p are the digits of a number with as many of them behind the point
as p is below zero. -/
theorem exists_numeral (c : Nat) (p : Int) :
    ∃ n : Numeral, n.Positional ∧ n.fraction.length = (-p).toNat ∧ valueOf (n.whole ++ n.fraction) = c * 10 ^ p.toNat ∧
      positional c p = n.written := by
  obtain ⟨hne, hdigits, hvalue⟩ := exists_digits c
  rw [positional]
  split
  · next hp =>
    refine ⟨⟨digits c ++ .replicate p.toNat '0', [], 0⟩, ⟨by simp [hne], ?_, rfl⟩, ?_, ?_, ?_⟩
    · intro d hd
      rw [List.append_nil] at hd
      rcases List.mem_append.1 hd with hd | hd
      · exact hdigits d hd
      · rw [List.eq_of_mem_replicate hd]
        rfl
    · rw [List.length_nil]
      omega
    · rw [List.append_nil, valueOf_append_zeros, hvalue]
    · simp [Numeral.written]
  · next hp =>
    obtain ⟨n, hn, hlength, hsame, htext⟩ := exists_withPoint hdigits (-p).toNat
    have hfraction : n.fraction ≠ [] := by
      intro hnil
      rw [hnil, List.length_nil] at hlength
      omega
    have hpow : p.toNat = 0 := by omega
    refine ⟨n, hn, hlength, ?_, ?_⟩
    · rw [hsame, hvalue, hpow, Nat.pow_zero, Nat.mul_one]
    · rw [htext, Numeral.written, if_neg hfraction]

end ComplexFormula.Decimal

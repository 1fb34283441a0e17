/-
The shortest decimal of a number rounds to that number. The interval of the reals that round to a number is longer than
the step of some decimal grid that the search comes to, so a grid point lies in it and the search ends with one.

- `covers_iff`: the grid points of an interval are the decimals that round to the number.
- `covers_of_point?`, `not_covers_of_point?`: a grid point is found if there is one.
- `exists_covers_fineExponent`: there is one on a fine grid.
- `search_covers`: **the search** ends with a grid point if some grid on its way has one.
- `roundsTo_shortest`: **the shortest decimal** rounds to the number.
-/
import ComplexFormula.Decimal.Shortest
import ComplexFormula.Proofs.Binary64.Rounding

namespace ComplexFormula.Decimal

open Binary64

/-! ## Grid points -/

section

variable {m c fuel : Nat} {q p : Int} {i : Interval}

theorem pow_toNat_eq {a : Rat} (ha : a ≠ 0) (k : Int) : a ^ k.toNat = a ^ (-k).toNat * a ^ k := by
  rcases le_total 0 k with hk | hk
  · rw [pow_toNat hk, Int.toNat_of_nonpos (by omega), pow_zero, one_mul]
  · rw [Int.toNat_of_nonpos hk, pow_zero, pow_toNat (by omega), ← zpow_add₀ ha, neg_add_cancel, zpow_zero]

/-- a quarter of a unit of m · 2^q, over the denominator of the interval -/
def quarter (q p : Int) : Nat := 2 ^ (q - 2).toNat * 10 ^ (-p).toNat

theorem quarter_pos (q p : Int) : 0 < quarter q p := by
  rw [quarter]
  positivity

theorem Interval.of_eq (m : Nat) (q p : Int) : Interval.of m q p =
    { low := (4 * m - if m = implicitBit ∧ leastExponent < q then 1 else 2) * quarter q p
      value := 4 * m * quarter q p
      high := (4 * m + 2) * quarter q p
      step := 2 ^ (2 - q).toNat * 10 ^ p.toNat
      closed := m % 2 = 0 } := by
  simp only [Interval.of, quarter, Nat.shiftLeft_eq, Nat.pow_eq, Nat.mul_comm (2 ^ _)]

/-- **The grid points of the interval** are the multiples of 10^p that round to m · 2^q. -/
theorem covers_iff (hm : 0 < m) : (Interval.of m q p).Covers c ↔ RoundsTo m q (c * 10 ^ p) := by
  have hpos : (0 : Rat) < 4 * quarter q p := by exact_mod_cast Nat.mul_pos (by decide) (quarter_pos q p)
  have hlow : ((Interval.of m q p).low : Rat) = (m - below m q) * (4 * quarter q p) := by
    simp only [Interval.of_eq, below]
    split
    · rw [Nat.cast_mul, Nat.cast_sub (by omega)]
      push_cast
      ring
    · rw [Nat.cast_mul, Nat.cast_sub (by omega)]
      push_cast
      ring
  have hhigh : ((Interval.of m q p).high : Rat) = (m + 1 / 2) * (4 * quarter q p) := by
    simp only [Interval.of_eq]
    push_cast
    ring
  have hpoint : ((c * (Interval.of m q p).step : Nat) : Rat) = c * 10 ^ p / 2 ^ q * (4 * quarter q p) := by
    simp only [Interval.of_eq, quarter]
    push_cast
    rw [pow_toNat_eq two_ne_zero (2 - q), pow_toNat_eq (by norm_num : (10 : Rat) ≠ 0) p, neg_sub, zpow_sub₀ two_ne_zero]
    field_simp
    norm_num
  have hclosed : ((Interval.of m q p).closed = true) ↔ m % 2 = 0 := decide_eq_true_iff
  rw [RoundsTo, rounds_iff_scaled hpos, ← hlow, ← hhigh, ← hpoint, Interval.Covers, hclosed]
  norm_cast

/-- a grid point that is found rounds to the number -/
theorem covers_of_point? (h : i.point? = some c) : i.Covers c := by
  simp only [Interval.point?] at h
  split at h
  · next hlow =>
    cases h
    exact hlow.1
  · split at h
    · next hhigh =>
      cases h
      exact hhigh
    · cases h

/-- if any grid point rounds to the number, so does one of the two next to it -/
theorem not_covers_of_point? (hlow : i.low ≤ i.value) (hhigh : i.value < i.high) (hstep : 0 < i.step)
    (h : i.point? = none) : ¬i.Covers c := by
  have hsplit := Nat.div_add_mod i.value i.step
  have hmod := Nat.mod_lt i.value hstep
  have hnone : ¬i.Covers (i.value / i.step) ∧ ¬i.Covers (i.value / i.step + 1) := by
    simp only [Interval.point?] at h
    split at h
    · cases h
    · next hfirst =>
      split at h
      · cases h
      · next hsecond =>
        exact ⟨fun hcovers => hfirst ⟨hcovers, fun hnext => absurd hnext hsecond⟩, hsecond⟩
  set k := i.value / i.step
  have hk : k * i.step ≤ i.value := Nat.div_mul_le_self _ _
  have hk' : i.value < (k + 1) * i.step := by
    rw [Nat.succ_mul, Nat.mul_comm k]
    omega
  intro hcovers
  rcases Nat.lt_or_ge k c with hlt | hge
  · apply hnone.2
    have hle : (k + 1) * i.step ≤ c * i.step := Nat.mul_le_mul_right _ hlt
    rcases hcovers with hin | hin
    · exact .inl (by omega)
    · exact .inr ⟨hin.1, by omega⟩
  · apply hnone.1
    have hle : c * i.step ≤ k * i.step := Nat.mul_le_mul_right _ hge
    rcases hcovers with hin | hin
    · exact .inl (by omega)
    · exact .inr ⟨hin.1, by omega⟩

/-- an interval longer than a step has a grid point -/
theorem exists_covers (hstep : 0 < i.step) (h : i.low + i.step < i.high) : ∃ c, i.Covers c := by
  have hsplit := Nat.div_add_mod i.low i.step
  have hmod := Nat.mod_lt i.low hstep
  refine ⟨i.low / i.step + 1, .inl ⟨?_, ?_⟩⟩
  · rw [Nat.succ_mul, Nat.mul_comm]
    omega
  · rw [Nat.succ_mul, Nat.mul_comm]
    omega

theorem Interval.step_pos : 0 < (Interval.of m q p).step := by
  rw [Interval.of_eq]
  positivity

theorem Interval.low_le_value : (Interval.of m q p).low ≤ (Interval.of m q p).value :=
  Nat.mul_le_mul_right _ (Nat.sub_le _ _)

theorem Interval.value_lt_high : (Interval.of m q p).value < (Interval.of m q p).high := by
  rw [Interval.of_eq]
  exact Nat.mul_lt_mul_of_pos_right (by omega) (quarter_pos q p)

/-! ## The search -/

/-- **The search** ends with a grid point of the interval if some grid on its way has one. -/
theorem search_covers (h : ∃ k, p - fuel < k ∧ k ≤ p ∧ ∃ c, (Interval.of m q k).Covers c) :
    (Interval.of m q (search m q fuel p).2).Covers (search m q fuel p).1 ∧
      p - fuel < (search m q fuel p).2 ∧ (search m q fuel p).2 ≤ p := by
  induction fuel generalizing p with
  | zero =>
    obtain ⟨k, hlow, hhigh, -⟩ := h
    omega
  | succ fuel ih =>
    rw [search]
    cases hpoint : (Interval.of m q p).point? with
    | some c =>
      dsimp only
      exact ⟨covers_of_point? hpoint, by omega, le_rfl⟩
    | none =>
      dsimp only
      obtain ⟨k, hlow, hhigh, c, hcovers⟩ := h
      have hne : k ≠ p := by
        rintro rfl
        exact not_covers_of_point? Interval.low_le_value Interval.value_lt_high Interval.step_pos hpoint hcovers
      obtain ⟨hin, hbelow, habove⟩ := ih (p := p - 1) ⟨k, by omega, by omega, c, hcovers⟩
      exact ⟨hin, by omega, by omega⟩

/-- the exponent of a power of ten that is below three quarters of 2^q -/
def fineExponent (q : Int) : Int := (q * 30103 - 13000) / 100000

/-- the step of that grid is less than three quarters of a unit. Every eighth exponent is enough: the grid is still
finer for those above it. -/
theorem fine_grid : ∀ k < (257 : Nat),
    2 ^ (2 - 8 * ((k : Int) - 135)).toNat * 10 ^ (fineExponent (8 * (k - 135))).toNat <
      3 * quarter (8 * (k - 135)) (fineExponent (8 * (k - 135))) := by
  decide +kernel

theorem step_lt (hc : Canonical m q) (hp : p = fineExponent (8 * (q / 8))) :
    (Interval.of m q p).step < 3 * quarter q p := by
  have hleast := hc.least
  have hgreatest := hc.greatest
  simp only [leastExponent] at hleast
  obtain ⟨k, hk⟩ : ∃ k : Nat, q / 8 = k - 135 := ⟨(q / 8 + 135).toNat, by omega⟩
  have hfine := fine_grid k (by omega)
  rw [hk] at hp
  rw [← hp] at hfine
  rw [Interval.of_eq]
  calc 2 ^ (2 - q).toNat * 10 ^ p.toNat
      ≤ 2 ^ (2 - 8 * ((k : Int) - 135)).toNat * 10 ^ p.toNat :=
        Nat.mul_le_mul_right _ (Nat.pow_le_pow_right (by decide) (by omega))
    _ < 3 * quarter (8 * ((k : Int) - 135)) p := hfine
    _ ≤ 3 * quarter q p :=
        Nat.mul_le_mul_left _ (Nat.mul_le_mul_right _ (Nat.pow_le_pow_right (by decide) (by omega)))

/-- an interval is at least three quarters of a unit long, so it meets that grid -/
theorem exists_covers_fineExponent (hc : Canonical m q) (hm : 0 < m) :
    ∃ c, (Interval.of m q (fineExponent (8 * (q / 8)))).Covers c := by
  refine exists_covers Interval.step_pos ?_
  have hstep := step_lt hc rfl
  rw [Interval.of_eq] at hstep ⊢
  generalize quarter q (fineExponent (8 * (q / 8))) = unit at *
  have hwidth : ∀ b ≤ 2, (4 * m + 2) * unit = (4 * m - b) * unit + (2 + b) * unit := by
    intro b hb
    rw [← Nat.add_mul]
    congr 1
    omega
  dsimp only at hstep ⊢
  split
  · rw [hwidth 1 (by decide)]
    omega
  · rw [hwidth 2 (by decide)]
    omega

theorem log2_le (hc : Canonical m q) (hm : 0 < m) : m.log2 ≤ 52 := by
  have hlt : m < 2 ^ 53 := hc.mantissa
  have := (Nat.log2_lt hm.ne').2 hlt
  omega

/-- **The shortest decimal** of a number rounds to it, and does not reach far below the point. -/
theorem roundsTo_shortest (hc : Canonical m q) (hm : 0 < m) :
    RoundsTo m q ((shortest m q).1 * 10 ^ (shortest m q).2) ∧ -342 ≤ (shortest m q).2 := by
  have hlog := log2_le hc hm
  have hleast := hc.least
  simp only [leastExponent] at hleast
  obtain ⟨hcovers, hbelow, -⟩ : (Interval.of m q (shortest m q).2).Covers (shortest m q).1 ∧
      exponentBound m q - (21 : Nat) < (shortest m q).2 ∧ (shortest m q).2 ≤ exponentBound m q := by
    refine search_covers ⟨fineExponent (8 * (q / 8)), ?_, ?_, exists_covers_fineExponent hc hm⟩
    · simp only [exponentBound, fineExponent]
      omega
    · simp only [exponentBound, fineExponent]
      omega
  refine ⟨(covers_iff hm).1 hcovers, ?_⟩
  simp only [exponentBound] at hbelow
  omega

end

end ComplexFormula.Decimal

/-
Rounding to binary64. A real number rounds to m · 2^q when it lies within half a unit of it, or within a quarter below
a power of two, where the units are smaller; the ends of this interval count when m is even. `nearestMagnitude` gives
the number that its argument rounds to.

- `Canonical`, `place`: the mantissas and exponents of finite numbers, and their magnitudes.
- `Rounds`, `RoundsTo`: rounding to a whole number, and to m · 2^q.
- `rounds_roundShift`: the rounding of a quotient.
- `nearestMagnitude_eq`: **the nearest number** is the one that the exact value rounds to.
-/
import ComplexFormula.Binary64.Nearest
import Mathlib.Algebra.Order.Field.Power
import Mathlib.Data.Rat.Cast.Order
import Mathlib.Tactic.FieldSimp
import Mathlib.Tactic.Linarith
import Mathlib.Tactic.Positivity
import Mathlib.Tactic.Ring

namespace ComplexFormula.Binary64

/-! ## Finite numbers -/

/-- m and q are the mantissa and the exponent of a finite number -/
structure Canonical (m : Nat) (q : Int) : Prop where
  mantissa : m < 2 * implicitBit
  least : leastExponent ≤ q
  greatest : q ≤ 971
  normal : leastExponent < q → implicitBit ≤ m

/-- the magnitude of m · 2^q -/
def place (m : Nat) (q : Int) : Nat := (q - leastExponent).toNat * implicitBit + m

/-- a finite number has a mantissa and an exponent, and its place is its magnitude -/
theorem exists_parts {x : Binary64} (h : x.isFinite = true) :
    ∃ m q, x.parts = .finite x.isNegative m q ∧ Canonical m q ∧ place m q = x.magnitude := by
  have hmagnitude : x.magnitude < specialField * implicitBit := of_decide_eq_true h
  have hfield : x.magnitude / implicitBit < specialField := Nat.div_lt_of_lt_mul (by rwa [Nat.mul_comm])
  have hmod : x.magnitude % implicitBit < implicitBit := Nat.mod_lt _ (by decide)
  have hsplit := Nat.div_add_mod x.magnitude implicitBit
  rw [parts]
  generalize x.magnitude / implicitBit = field at *
  generalize x.magnitude % implicitBit = fraction at *
  rw [if_neg hfield.ne]
  by_cases hzero : field = 0
  · subst hzero
    refine ⟨fraction, leastExponent, rfl, ⟨by omega, le_rfl, by decide, fun h => absurd h (lt_irrefl _)⟩, ?_⟩
    rw [place, sub_self, Int.toNat_zero]
    omega
  · obtain ⟨k, rfl⟩ := Nat.exists_eq_succ_of_ne_zero hzero
    refine ⟨fraction + implicitBit, (k + 1 : Nat) + leastExponent - 1, by rw [if_neg hzero],
      ⟨by omega, by omega, ?_, ?_⟩, ?_⟩
    · simp only [specialField, leastExponent] at hfield ⊢
      omega
    · intro _
      exact Nat.le_add_left _ _
    · have hexponent : (((k + 1 : Nat) : Int) + leastExponent - 1 - leastExponent).toNat = k := by omega
      rw [place, hexponent, ← hsplit, Nat.succ_eq_add_one]
      ring

/-! ## Rounding to whole numbers -/

/-- y is at most half a unit above n and at most `below` under it, and less than that when n is odd -/
def Rounds (below : Rat) (n : Nat) (y : Rat) : Prop :=
  (n - below < y ∧ y < n + 1 / 2) ∨ (n % 2 = 0 ∧ n - below ≤ y ∧ y ≤ n + 1 / 2)

section

variable {below y c : Rat} {n a b s : Nat} {rest : Bool}

theorem Rounds.le (h : Rounds below n y) : n - below ≤ y ∧ y ≤ n + 1 / 2 := by
  rcases h with h | h
  · exact ⟨h.1.le, h.2.le⟩
  · exact h.2

theorem Rounds.mono (h : Rounds below n y) (hle : below ≤ 1 / 2) : Rounds (1 / 2) n y := by
  rcases h with h | h
  · exact .inl ⟨by linarith, h.2⟩
  · exact .inr ⟨h.1, by linarith, h.2.2⟩

/-- rounding may be checked on a larger scale -/
theorem rounds_iff_scaled (hc : 0 < c) : Rounds below n y ↔
    ((n - below) * c < y * c ∧ y * c < (n + 1 / 2) * c) ∨
      (n % 2 = 0 ∧ (n - below) * c ≤ y * c ∧ y * c ≤ (n + 1 / 2) * c) := by
  simp only [Rounds, mul_lt_mul_iff_of_pos_right hc, mul_le_mul_iff_of_pos_right hc]

theorem Rounds.not_lt (ha : Rounds (1 / 2) a y) (hb : Rounds (1 / 2) b y) : ¬a < b := by
  intro hlt
  have hle : (a : Rat) + 1 ≤ b := by exact_mod_cast hlt
  rcases ha with ⟨-, ha⟩ | ⟨heven, -, ha⟩
  · have := hb.le.1
    linarith
  · rcases hb with ⟨hb, -⟩ | ⟨heven', hb, -⟩
    · linarith
    · -- only the point halfway between the two is left, and one of the two is odd
      have hnext : b = a + 1 := by
        have hcast : (b : Rat) = a + 1 := by linarith
        exact_mod_cast hcast
      omega

/-- no number rounds to two whole numbers -/
theorem Rounds.unique (ha : Rounds (1 / 2) a y) (hb : Rounds (1 / 2) b y) : a = b := by
  have := ha.not_lt hb
  have := hb.not_lt ha
  omega

theorem rounds_self (n : Nat) : Rounds (1 / 2) n n := .inl ⟨by linarith, by linarith⟩

/-- y is m, or strictly between m and m + 1 if `rest` holds -/
def Approximates (m : Nat) (rest : Bool) (y : Rat) : Prop := if rest then (m : Rat) < y ∧ y < m + 1 else y = m

theorem Approximates.bounds {m : Nat} (h : Approximates m rest y) : m ≤ y ∧ y < m + 1 := by
  cases rest with
  | false =>
    have heq : y = m := h
    exact ⟨heq.ge, by linarith⟩
  | true =>
    have hlt : (m : Rat) < y ∧ y < m + 1 := h
    exact ⟨hlt.1.le, hlt.2⟩

/-- the rounding of a quotient by its remainder: up beyond the half, and at the half if anything else speaks for it -/
theorem roundShift_eq (m k : Nat) (rest : Bool) : roundShift m (k + 1) rest =
    if 2 ^ k < m % (2 * 2 ^ k) ∨ (m % (2 * 2 ^ k) = 2 ^ k ∧ (rest = true ∨ m / (2 * 2 ^ k) % 2 = 1)) then
      m / (2 * 2 ^ k) + 1
    else m / (2 * 2 ^ k) := by
  have hunit : 2 ^ (k + 1) = 2 * 2 ^ k := by rw [Nat.pow_succ, Nat.mul_comm]
  have htwice : 2 * (m - m / (2 * 2 ^ k) * (2 * 2 ^ k)) = 2 * (m % (2 * 2 ^ k)) := by
    have hsplit := Nat.div_add_mod m (2 * 2 ^ k)
    rw [Nat.mul_comm] at hsplit
    omega
  simp only [roundShift, Nat.shiftRight_eq_div_pow, Nat.shiftLeft_eq, hunit, htwice, Nat.one_mul]
  simp only [Nat.mul_lt_mul_left (show 0 < 2 by decide), Nat.mul_right_inj (show 2 ≠ 0 by decide)]

/-- the shifted number is rounded: to the nearest whole number, to the even one when it lies halfway -/
theorem rounds_roundShift {m : Nat} (hs : 0 < s) (h : Approximates m rest (y * 2 ^ s)) :
    Rounds (1 / 2) (roundShift m s rest) y := by
  obtain ⟨k, rfl⟩ : ∃ k, s = k + 1 := ⟨s - 1, by omega⟩
  have hscale : (2 : Rat) ^ (k + 1) = 2 * (2 ^ k : Nat) := by
    push_cast
    exact pow_succ' 2 k
  rw [hscale] at h
  rw [roundShift_eq]
  have hpos : 0 < 2 ^ k := Nat.two_pow_pos k
  generalize 2 ^ k = half at *
  have hm : m = m / (2 * half) * (2 * half) + m % (2 * half) := by rw [Nat.mul_comm, Nat.div_add_mod]
  have hlt : m % (2 * half) < 2 * half := Nat.mod_lt _ (by omega)
  generalize m / (2 * half) = w at *
  generalize m % (2 * half) = r at *
  have hc : (0 : Rat) < 2 * half := by exact_mod_cast (by omega : 0 < 2 * half)
  have hmq : (m : Rat) = w * (2 * half) + r := by exact_mod_cast hm
  have hltq : (r : Rat) + 1 ≤ 2 * half := by exact_mod_cast hlt
  have hr0 : (0 : Rat) ≤ r := Nat.cast_nonneg r
  rw [rounds_iff_scaled hc]
  have hbounds := h.bounds
  split
  · next hup =>
    push_cast
    rcases hup with hup | ⟨hmid, hrest | hodd⟩
    · have hupq : (half : Rat) + 1 ≤ r := by exact_mod_cast hup
      exact .inl ⟨by linarith, by linarith⟩
    · subst hrest
      have habove : (m : Rat) < y * (2 * half) := h.1
      have hmidq : (r : Rat) = half := by exact_mod_cast hmid
      exact .inl ⟨by linarith, by linarith⟩
    · have hmidq : (r : Rat) = half := by exact_mod_cast hmid
      exact .inr ⟨by omega, by linarith, by linarith⟩
  · next hdown =>
    rcases Nat.lt_trichotomy r half with hlow | hmid | hup
    · have hlowq : (r : Rat) + 1 ≤ half := by exact_mod_cast hlow
      exact .inl ⟨by linarith, by linarith⟩
    · have hmidq : (r : Rat) = half := by exact_mod_cast hmid
      have hrest : rest = false := by
        cases rest with
        | false => rfl
        | true => exact absurd (.inr ⟨hmid, .inl rfl⟩) hdown
      subst hrest
      have hexact : y * (2 * half) = m := h
      have heven : w % 2 = 0 := by omega
      exact .inr ⟨heven, by linarith, by linarith⟩
    · exact absurd (.inl hup) hdown

end

/-! ## Rounding to numbers -/

/-- the part of a unit below m · 2^q that rounds to it -/
def below (m : Nat) (q : Int) : Rat := if m = implicitBit ∧ leastExponent < q then 1 / 4 else 1 / 2

/-- v rounds to m · 2^q -/
def RoundsTo (m : Nat) (q : Int) (v : Rat) : Prop := Rounds (below m q) m (v / 2 ^ q)

section

variable {m n : Nat} {q e l : Int} {v : Rat} {rest : Bool}

theorem below_le (m : Nat) (q : Int) : below m q ≤ 1 / 2 := by
  rw [below]
  split <;> norm_num

theorem cast_implicitBit : (implicitBit : Rat) = 2 ^ (52 : Int) := by
  norm_num [implicitBit]

theorem two_zpow_pos (k : Int) : (0 : Rat) < 2 ^ k := by positivity

theorem pow_toNat {a : Rat} {k : Int} (hk : 0 ≤ k) : a ^ k.toNat = a ^ k := by
  rw [← zpow_natCast, Int.toNat_of_nonneg hk]

theorem le_of_two_zpow_lt {j k : Int} (hj : (2 : Rat) ^ j ≤ v) (hk : v < 2 ^ k) : j < k :=
  (zpow_lt_zpow_iff_right₀ (by norm_num)).1 (lt_of_le_of_lt hj hk)

/-- a value that rounds to a number is below the next power of two -/
theorem RoundsTo.lt (h : RoundsTo m q v) (hc : Canonical m q) : v < 2 ^ (53 + q) := by
  have hle : (m : Rat) + 1 ≤ 2 * implicitBit := by exact_mod_cast hc.mantissa
  have hy : v / 2 ^ q < 2 ^ (53 : Int) := by
    have := h.le.2
    have hdouble : (2 : Rat) ^ (53 : Int) = 2 * 2 ^ (52 : Int) := by norm_num
    rw [cast_implicitBit] at hle
    linarith
  rw [zpow_add₀ (by norm_num)]
  exact (div_lt_iff₀ (two_zpow_pos q)).1 hy

/-- a value that rounds to a number is at least half of that number -/
theorem RoundsTo.ge (h : RoundsTo m q v) (hm : 0 < m) : (m : Rat) / 2 * 2 ^ q ≤ v := by
  have hone : (1 : Rat) ≤ m := by exact_mod_cast hm
  refine (le_div_iff₀ (two_zpow_pos q)).1 ?_
  have := h.le.1
  have := below_le m q
  linarith

/-- a value that rounds to a normal number is not below the power of two under that number -/
theorem RoundsTo.two_zpow_le (h : RoundsTo m q v) (hnormal : implicitBit ≤ m) : (2 : Rat) ^ (51 + q) ≤ v := by
  have hcast : (2 : Rat) ^ (52 : Int) ≤ m := by
    rw [← cast_implicitBit]
    exact_mod_cast hnormal
  have hdouble : (2 : Rat) ^ (52 : Int) = 2 * 2 ^ (51 : Int) := by norm_num
  calc (2 : Rat) ^ (51 + q) = 2 ^ (51 : Int) * 2 ^ q := zpow_add₀ (by norm_num) _ _
    _ ≤ m / 2 * 2 ^ q := mul_le_mul_of_nonneg_right (by linarith) (two_zpow_pos q).le
    _ ≤ v := h.ge (lt_of_lt_of_le (by decide) hnormal)

/-- a value that rounds to a normal number from below the least mantissa rounds to a power of two, which is 2^53 of the
smaller units there -/
theorem RoundsTo.rounds_finer (h : RoundsTo m q v) (hq : leastExponent < q) (hnormal : implicitBit ≤ m)
    (hy : v / 2 ^ q < implicitBit) : m = implicitBit ∧ Rounds (1 / 2) (2 * implicitBit) (v / 2 ^ (q - 1)) := by
  have hlow := h.le.1
  have hm : m = implicitBit := by
    have hlt : m < implicitBit + 1 := by
      have hle := below_le m q
      have hcast : (m : Rat) < implicitBit + 1 := by linarith
      exact_mod_cast hcast
    omega
  have hbelow : below m q = 1 / 4 := if_pos ⟨hm, hq⟩
  rw [hbelow, hm] at hlow
  have hdouble : v / 2 ^ (q - 1) = 2 * (v / 2 ^ q) := by
    rw [zpow_sub_one₀ (by norm_num)]
    field_simp
  refine ⟨hm, .inr ⟨by omega, ?_, ?_⟩⟩
  · rw [hdouble]
    push_cast
    linarith
  · rw [hdouble]
    push_cast
    linarith

/-- the number is the nearest one on the grid that its leading digit gives: that of its own exponent, or the next finer
one -/
theorem RoundsTo.exists_rounds (h : RoundsTo m q v) (hc : Canonical m q) (hlow : (2 : Rat) ^ l ≤ v)
    (hhigh : v < 2 ^ (l + 1)) :
    ∃ n, Rounds (1 / 2) n (v / 2 ^ max (l - 52) leastExponent) ∧ place n (max (l - 52) leastExponent) = place m q := by
  have hl : l < 53 + q := le_of_two_zpow_lt hlow (h.lt hc)
  have hleast := hc.least
  by_cases htarget : max (l - 52) leastExponent = q
  · rw [htarget]
    exact ⟨m, h.mono (below_le m q), rfl⟩
  · have hq : leastExponent < q := by omega
    have hnormal := hc.normal hq
    have hl' : 51 + q < l + 1 := le_of_two_zpow_lt (h.two_zpow_le hnormal) hhigh
    have hlq : l + 1 = 52 + q := by omega
    have hfiner : max (l - 52) leastExponent = q - 1 := by omega
    have hy : v / 2 ^ q < implicitBit := by
      rw [cast_implicitBit, div_lt_iff₀ (two_zpow_pos q), ← zpow_add₀ (by norm_num), ← hlq]
      exact hhigh
    obtain ⟨rfl, hrounds⟩ := h.rounds_finer hq hnormal hy
    refine ⟨2 * implicitBit, by rwa [hfiner], ?_⟩
    have hexponent : (q - leastExponent).toNat = (q - 1 - leastExponent).toNat + 1 := by omega
    rw [hfiner, place, place, hexponent]
    ring

/-- the shifts of a rounding: to the left exactly, to the right to the nearest whole number -/
theorem rounds_shift {target : Int} (h : Approximates n rest (v / 2 ^ e)) (hexact : target ≤ e → rest = false) :
    Rounds (1 / 2) (if target ≤ e then n <<< (e - target).toNat else roundShift n (target - e).toNat rest)
      (v / 2 ^ target) := by
  split
  · next hle =>
    rw [hexact hle] at h
    have hvalue : v / 2 ^ e = n := h
    have hsame : v / 2 ^ target = (n <<< (e - target).toNat : Nat) := by
      rw [Nat.shiftLeft_eq]
      push_cast
      rw [pow_toNat (by omega), ← hvalue, zpow_sub₀ (by norm_num)]
      field_simp
    rw [hsame]
    exact rounds_self _
  · next hlt =>
    refine rounds_roundShift (by omega) ?_
    have hsame : v / 2 ^ target * 2 ^ (target - e).toNat = v / 2 ^ e := by
      rw [pow_toNat (by omega), zpow_sub₀ (by norm_num)]
      field_simp
    rwa [hsame]

/-- **The nearest number** is the one that the value rounds to. A value that is given inexactly has to be given with
enough bits. -/
theorem nearestMagnitude_eq (hc : Canonical m q) (hn : 0 < n) (hbits : rest = true → 2 ^ 55 ≤ n)
    (happrox : Approximates n rest (v / 2 ^ e)) (h : RoundsTo m q v) : nearestMagnitude n e rest = place m q := by
  have hlow : (2 : Rat) ^ ((n.log2 : Int) + e) ≤ v := by
    have hlog : (2 : Rat) ^ (n.log2 : Int) ≤ n := by
      rw [zpow_natCast]
      exact_mod_cast Nat.log2_self_le hn.ne'
    rw [zpow_add₀ (by norm_num)]
    exact (le_div_iff₀ (two_zpow_pos e)).1 (hlog.trans happrox.bounds.1)
  have hhigh : v < 2 ^ ((n.log2 : Int) + e + 1) := by
    have hlog : (n : Rat) + 1 ≤ 2 ^ ((n.log2 : Int) + 1) := by
      rw [← Nat.cast_succ n.log2, zpow_natCast]
      exact_mod_cast Nat.succ_le_of_lt Nat.lt_log2_self
    rw [add_right_comm, zpow_add₀ (by norm_num)]
    exact (div_lt_iff₀ (two_zpow_pos e)).1 (happrox.bounds.2.trans_le hlog)
  obtain ⟨k, hk, hplace⟩ := h.exists_rounds hc hlow hhigh
  have htarget : (n.log2 : Int) - 52 + e = (n.log2 : Int) + e - 52 := by omega
  have hexact : max ((n.log2 : Int) + e - 52) leastExponent ≤ e → rest = false := by
    intro hle
    cases rest with
    | false => rfl
    | true =>
      have hlog : 55 ≤ n.log2 := (Nat.le_log2 hn.ne').2 (hbits rfl)
      omega
  have hmantissa := (rounds_shift happrox hexact).unique hk
  have hfits : place m q ≤ infiniteMagnitude := by
    have := hc.mantissa
    have := hc.greatest
    simp only [place, infiniteMagnitude, specialField, implicitBit, leastExponent] at *
    omega
  rw [nearestMagnitude, if_neg hn.ne', htarget]
  dsimp only
  rw [hmantissa]
  exact (congrArg (min · infiniteMagnitude) hplace).trans (Nat.min_eq_left hfits)

/-- the number given by its sign, mantissa and exponent is the nearest one to all that rounds to it -/
theorem nearest_eq (negative : Bool) (hc : Canonical m q) (hn : 0 < n) (hbits : rest = true → 2 ^ 55 ≤ n)
    (happrox : Approximates n rest (v / 2 ^ e)) (h : RoundsTo m q v) :
    nearest negative n e rest = ofSignAndMagnitude negative (place m q) := by
  rw [nearest, nearestMagnitude_eq hc hn hbits happrox h]

theorem nearestMagnitude_le (n : Nat) (e : Int) (rest : Bool) : nearestMagnitude n e rest ≤ infiniteMagnitude := by
  rw [nearestMagnitude]
  split
  · exact Nat.zero_le _
  · exact Nat.min_le_right _ _

theorem nearestMagnitude_lt (n : Nat) (e : Int) (rest : Bool) : nearestMagnitude n e rest < signBit :=
  Nat.lt_of_le_of_lt (nearestMagnitude_le n e rest) (by decide)

/-- rounding keeps the sign -/
theorem isNegative_nearest (negative : Bool) (n : Nat) (e : Int) (rest : Bool) :
    (nearest negative n e rest).isNegative = negative := isNegative_ofSignAndMagnitude (nearestMagnitude_lt n e rest)

/-- rounding gives a number -/
theorem isNaN_nearest (negative : Bool) (n : Nat) (e : Int) (rest : Bool) :
    (nearest negative n e rest).isNaN = false := by
  rw [isNaN, nearest, magnitude_ofSignAndMagnitude (nearestMagnitude_lt n e rest), decide_eq_false_iff_not,
    Nat.not_lt]
  exact nearestMagnitude_le n e rest

end

end ComplexFormula.Binary64

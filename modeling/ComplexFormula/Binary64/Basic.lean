/-
Numbers of the binary64 format by their 64 bits: a sign, and a magnitude of 63 bits that grows with the absolute value.
`Float` has one NaN only; here a NaN has a sign like every other number, and the principal square root looks at it.

- `Binary64`: the type, made by `ofSignAndMagnitude` and read by `isNegative` and `magnitude`.
- `ofSignAndMagnitude_self`, `isNegative_ofSignAndMagnitude`, `magnitude_ofSignAndMagnitude`: making and reading are
  inverse to each other.
- `<`, `≤`, `==`: the order of numbers, in which the two zeros are equal and NaN stands nowhere.
- `lt_irrefl`, `lt_trans`: the order is strict.
- `-x`, `abs`: a change of the sign alone.
-/

namespace ComplexFormula

/-- a binary64 number by its bits: the sign first, then the magnitude -/
structure Binary64 where
  bits : UInt64
deriving DecidableEq, Repr

namespace Binary64

/-! ## Sign and magnitude -/

/-- the weight of the sign bit, above every magnitude -/
def signBit : Nat := 0x8000000000000000

/-- the number with the given sign and magnitude -/
def ofSignAndMagnitude (negative : Bool) (magnitude : Nat) : Binary64 :=
  ⟨.ofNat (if negative then magnitude + signBit else magnitude)⟩

/-- the sign bit is set; zeros and NaNs have one as well -/
def isNegative (x : Binary64) : Bool := signBit ≤ x.bits.toNat

/-- the bits below the sign -/
def magnitude (x : Binary64) : Nat := x.bits.toNat % signBit

theorem magnitude_lt (x : Binary64) : x.magnitude < signBit := Nat.mod_lt _ (by decide)

theorem isNegative_ofSignAndMagnitude {negative : Bool} {m : Nat} (h : m < signBit) :
    (ofSignAndMagnitude negative m).isNegative = negative := by
  simp only [signBit] at h
  cases negative <;> simp [isNegative, ofSignAndMagnitude, signBit] <;> omega

theorem magnitude_ofSignAndMagnitude {negative : Bool} {m : Nat} (h : m < signBit) :
    (ofSignAndMagnitude negative m).magnitude = m := by
  simp only [signBit] at h
  cases negative <;> simp [magnitude, ofSignAndMagnitude, signBit] <;> omega

/-- a number is its sign and its magnitude -/
theorem ofSignAndMagnitude_self (x : Binary64) : ofSignAndMagnitude x.isNegative x.magnitude = x := by
  obtain ⟨bits⟩ := x
  have hb := bits.toNat_lt
  rw [ofSignAndMagnitude, mk.injEq, ← UInt64.toNat_inj, UInt64.toNat_ofNat']
  simp only [isNegative, magnitude, signBit]
  by_cases h : 0x8000000000000000 ≤ bits.toNat
  · simp only [h, decide_true, if_true]; omega
  · simp only [h, decide_false, Bool.false_eq_true, if_false]; omega

/-! ## Infinities and NaN -/

/-- two to the 52nd: the mantissa of a normal number is at least this -/
def implicitBit : Nat := 0x10000000000000

/-- the exponent field of the infinities and of NaN -/
def specialField : Nat := 2047

/-- the magnitude of the infinities; those above it are the NaNs -/
def infiniteMagnitude : Nat := specialField * implicitBit

def isNaN (x : Binary64) : Bool := infiniteMagnitude < x.magnitude

def isInf (x : Binary64) : Bool := x.magnitude == infiniteMagnitude

def isFinite (x : Binary64) : Bool := x.magnitude < infiniteMagnitude

/-- positive infinity -/
def infinity : Binary64 := ofSignAndMagnitude false infiniteMagnitude

/-- the positive NaN -/
def nan : Binary64 := ofSignAndMagnitude false (infiniteMagnitude + implicitBit / 2)

/-! ## Order -/

/-- the place of a number in the order; both zeros have the place 0 -/
def rank (x : Binary64) : Int := if x.isNegative then -x.magnitude else x.magnitude

instance : BEq Binary64 where
  beq x y := !x.isNaN && !y.isNaN && x.rank == y.rank

instance : LT Binary64 where
  lt x y := x.isNaN = false ∧ y.isNaN = false ∧ x.rank < y.rank

instance : LE Binary64 where
  le x y := x.isNaN = false ∧ y.isNaN = false ∧ x.rank ≤ y.rank

instance (x y : Binary64) : Decidable (x < y) :=
  inferInstanceAs (Decidable (x.isNaN = false ∧ y.isNaN = false ∧ x.rank < y.rank))

instance (x y : Binary64) : Decidable (x ≤ y) :=
  inferInstanceAs (Decidable (x.isNaN = false ∧ y.isNaN = false ∧ x.rank ≤ y.rank))

protected theorem lt_irrefl (x : Binary64) : ¬x < x := fun h => Int.lt_irrefl _ h.2.2

protected theorem lt_trans {x y z : Binary64} (hxy : x < y) (hyz : y < z) : x < z :=
  ⟨hxy.1, hyz.2.1, Int.lt_trans hxy.2.2 hyz.2.2⟩

/-! ## Change of sign -/

instance : Neg Binary64 where
  neg x := ofSignAndMagnitude (!x.isNegative) x.magnitude

/-- the absolute value; that of a NaN is the positive one -/
def abs (x : Binary64) : Binary64 := ofSignAndMagnitude false x.magnitude

@[simp] theorem isNegative_neg (x : Binary64) : (-x).isNegative = !x.isNegative :=
  isNegative_ofSignAndMagnitude x.magnitude_lt

@[simp] theorem magnitude_neg (x : Binary64) : (-x).magnitude = x.magnitude :=
  magnitude_ofSignAndMagnitude x.magnitude_lt

end Binary64

end ComplexFormula

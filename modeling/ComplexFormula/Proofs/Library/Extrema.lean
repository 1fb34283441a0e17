/-
The functions `max` and `min`. They start from the infinity that every number equals or goes beyond, keep the better of
two numbers, and keep NaN once it has come up. So their value is an operand that no operand goes beyond, or NaN if one
of them is NaN, and it depends neither on the order of the operands nor on how often one is given, up to the sign of a
zero or of a NaN. An operand with an imaginary part is refused wherever it stands.

- `Placed`: an order that gives every number a place, and a number whose place is the last.
- `IsExtremum`: NaN, or one of the numbers that none goes beyond; `IsExtremum.agrees`: there is only one.
- `isNaN_better_iff`, `better_cases`: one step; `foldl_better`: a fold from any number on.
- `isExtremum_extremum`: a fold from the last number of the order gives the extremum.
- `mapM_realOperand`: what a real operation sees of its operands.
- `extrema_of_extended`: **`max` and `min`** are the extrema of their operands.
-/
import ComplexFormula.Proofs.Library.Registration
import ComplexFormula.Proofs.Outcome
import ComplexFormula.Proofs.Representation

namespace ComplexFormula

/-! ## Orders of numbers -/

/-- numbers other than NaN compare as their places do, equal ones have one place, and no place is before that of
`start` -/
structure Placed (beyond : Binary64 → Binary64 → Prop) (start : Binary64) (place : Binary64 → Int) : Prop where
  beyond_iff {x y} (hx : x.isNaN = false) (hy : y.isNaN = false) : beyond x y ↔ place y < place x
  beq_iff {x y} (hx : x.isNaN = false) (hy : y.isNaN = false) : (x == y) = true ↔ place x = place y
  isNaN_start : start.isNaN = false
  least {x} (hx : x.isNaN = false) : place start ≤ place x

namespace Binary64

variable {x y : Binary64}

theorem lt_iff_rank (hx : x.isNaN = false) (hy : y.isNaN = false) : x < y ↔ x.rank < y.rank :=
  ⟨fun h => h.2.2, fun h => ⟨hx, hy, h⟩⟩

theorem beq_iff_rank (hx : x.isNaN = false) (hy : y.isNaN = false) : (x == y) = true ↔ x.rank = y.rank := by
  simp [BEq.beq, hx, hy]

/-- the infinities are the ends of the order -/
theorem rank_bounds (hx : x.isNaN = false) : (-infinity).rank ≤ x.rank ∧ x.rank ≤ infinity.rank := by
  have hlow : (-infinity).rank = -infiniteMagnitude := by decide
  have hhigh : infinity.rank = infiniteMagnitude := by decide
  have hmagnitude : x.magnitude ≤ infiniteMagnitude := by simpa [isNaN] using hx
  rw [hlow, hhigh, rank]
  split <;> omega

/-- upward from negative infinity -/
theorem placed_gt : Placed (· > ·) (-infinity) rank where
  beyond_iff hx hy := lt_iff_rank hy hx
  beq_iff := beq_iff_rank
  isNaN_start := by decide
  least hx := (rank_bounds hx).1

/-- downward from infinity -/
theorem placed_lt : Placed (· < ·) infinity fun x => -x.rank where
  beyond_iff hx hy := by rw [lt_iff_rank hx hy, Int.neg_lt_neg_iff]
  beq_iff hx hy := by rw [beq_iff_rank hx hy, Int.neg_inj]
  isNaN_start := by decide
  least hx := Int.neg_le_neg (rank_bounds hx).2

/-- the two are equal, or both of them are NaN -/
def Agrees (x y : Binary64) : Prop := (x == y) = true ∨ (x.isNaN = true ∧ y.isNaN = true)

end Binary64

section

variable {beyond : Binary64 → Binary64 → Prop} {start acc x y : Binary64} {place : Binary64 → Int}
  {xs xs' : List Binary64}

/-! ## Extrema -/

/-- NaN if one of the numbers is NaN, or else equal to one of them, with none of them beyond it -/
structure IsExtremum (beyond : Binary64 → Binary64 → Prop) (xs : List Binary64) (x : Binary64) : Prop where
  isNaN_iff : x.isNaN = true ↔ ∃ y ∈ xs, y.isNaN = true
  attained : (∀ y ∈ xs, y.isNaN = false) → ∃ y ∈ xs, (x == y) = true
  unsurpassed : (∀ y ∈ xs, y.isNaN = false) → ∀ y ∈ xs, ¬beyond y x

theorem isNaN_eq_false_of_iff (h : x.isNaN = true ↔ ∃ y ∈ xs, y.isNaN = true) (hall : ∀ y ∈ xs, y.isNaN = false) :
    x.isNaN = false := by
  rw [← Bool.not_eq_true, h]
  rintro ⟨y, hy, hnan⟩
  exact Bool.false_ne_true ((hall y hy).symm.trans hnan)

theorem IsExtremum.isNaN_eq_false (hx : IsExtremum beyond xs x) (hall : ∀ y ∈ xs, y.isNaN = false) :
    x.isNaN = false := isNaN_eq_false_of_iff hx.isNaN_iff hall

/-- an extremum is not beyond any other extremum of the same numbers -/
theorem IsExtremum.place_le (h : Placed beyond start place) (hx : IsExtremum beyond xs x)
    (hy : IsExtremum beyond xs' y) (hsame : ∀ z, z ∈ xs ↔ z ∈ xs') (hall : ∀ z ∈ xs, z.isNaN = false) :
    place x ≤ place y := by
  have hall' : ∀ z ∈ xs', z.isNaN = false := fun z hz => hall z ((hsame z).2 hz)
  obtain ⟨z, hz, hxz⟩ := hx.attained hall
  have hnot := hy.unsurpassed hall' z ((hsame z).1 hz)
  rw [h.beyond_iff (hall z hz) (hy.isNaN_eq_false hall'), Int.not_lt] at hnot
  rw [h.beq_iff (hx.isNaN_eq_false hall) (hall z hz)] at hxz
  exact hxz ▸ hnot

/-- **Numbers have one extremum** up to equality, however often each is among them and in whatever order. -/
theorem IsExtremum.agrees (h : Placed beyond start place) (hx : IsExtremum beyond xs x) (hy : IsExtremum beyond xs' y)
    (hsame : ∀ z, z ∈ xs ↔ z ∈ xs') : x.Agrees y := by
  by_cases hnan : ∃ z ∈ xs, z.isNaN = true
  · have hnan' : ∃ z ∈ xs', z.isNaN = true := by simpa only [hsame] using hnan
    exact .inr ⟨hx.isNaN_iff.2 hnan, hy.isNaN_iff.2 hnan'⟩
  · have hall : ∀ z ∈ xs, z.isNaN = false := by simpa using hnan
    have hall' : ∀ z ∈ xs', z.isNaN = false := fun z hz => hall z ((hsame z).2 hz)
    have hle := hx.place_le h hy hsame hall
    have hge := hy.place_le h hx (fun z => (hsame z).symm) hall'
    exact .inl ((h.beq_iff (hx.isNaN_eq_false hall) (hy.isNaN_eq_false hall')).2 (Int.le_antisymm hle hge))

/-! ## Folds -/

theorem isNaN_better_iff (wins : Binary64 → Binary64 → Bool) (x y : Binary64) :
    (better wins x y).isNaN = true ↔ x.isNaN = true ∨ y.isNaN = true := by
  have hnan : Binary64.nan.isNaN = true := by decide
  rw [better, ← Bool.or_eq_true]
  split
  case isTrue h => exact iff_of_true hnan h
  case isFalse h =>
    rw [iff_false_right h]
    rw [Bool.or_eq_true, not_or] at h
    split
    · exact h.1
    · exact h.2

/-- NaN if one of the numbers is, or else one of them whose place none exceeds -/
structure IsBest (place : Binary64 → Int) (xs : List Binary64) (x : Binary64) : Prop where
  isNaN_iff : x.isNaN = true ↔ ∃ y ∈ xs, y.isNaN = true
  mem : (∀ y ∈ xs, y.isNaN = false) → x ∈ xs
  le : (∀ y ∈ xs, y.isNaN = false) → ∀ y ∈ xs, place y ≤ place x

variable [DecidableRel beyond]

/-- the better of two numbers is one of them, and the other one is not beyond it -/
theorem better_cases (h : Placed beyond start place) (hx : x.isNaN = false) (hy : y.isNaN = false) :
    (better (fun x y => beyond x y) x y = x ∧ place y ≤ place x) ∨
      (better (fun x y => beyond x y) x y = y ∧ place x ≤ place y) := by
  have hneither : ¬(x.isNaN || y.isNaN) = true := by simp [hx, hy]
  rw [better, if_neg hneither]
  simp only [decide_eq_true_eq, h.beyond_iff hx hy]
  split
  case isTrue hlt => exact .inl ⟨rfl, Int.le_of_lt hlt⟩
  case isFalse hle => exact .inr ⟨rfl, Int.not_lt.1 hle⟩

/-- **One number more** behind the first one: the better of the two stands for both. -/
theorem IsBest.of_better (h : Placed beyond start place)
    (hx : IsBest place (better (fun x y => beyond x y) acc y :: xs) x) : IsBest place (acc :: y :: xs) x := by
  have hnan := isNaN_better_iff (fun x y => decide (beyond x y)) acc y
  have hboth : (∀ z ∈ acc :: y :: xs, z.isNaN = false) → (acc.isNaN = false ∧ y.isNaN = false) ∧
      ∀ z ∈ better (fun x y => decide (beyond x y)) acc y :: xs, z.isNaN = false := by
    simp only [List.forall_mem_cons, ← Bool.not_eq_true, hnan, not_or]
    exact fun ⟨hacc, hy, hxs⟩ => ⟨⟨hacc, hy⟩, ⟨hacc, hy⟩, hxs⟩
  constructor
  case isNaN_iff => simp only [hx.isNaN_iff, List.exists_mem_cons_iff, hnan, or_assoc]
  case mem =>
    intro hall
    obtain ⟨⟨hacc, hy⟩, hall⟩ := hboth hall
    rcases List.mem_cons.1 (hx.mem hall) with rfl | hmem
    · rcases better_cases h hacc hy with ⟨hbetter, -⟩ | ⟨hbetter, -⟩ <;> rw [hbetter] <;> simp
    · exact List.mem_cons_of_mem _ (List.mem_cons_of_mem _ hmem)
  case le =>
    intro hall
    obtain ⟨⟨hacc, hy⟩, hall⟩ := hboth hall
    obtain ⟨hle, hles⟩ := List.forall_mem_cons.1 (hx.le hall)
    rw [List.forall_mem_cons, List.forall_mem_cons]
    rcases better_cases h hacc hy with ⟨hbetter, hother⟩ | ⟨hbetter, hother⟩
    · rw [hbetter] at hle
      exact ⟨hle, Int.le_trans hother hle, hles⟩
    · rw [hbetter] at hle
      exact ⟨Int.le_trans hother hle, hle, hles⟩

/-- **A fold** from any number on gives the best of that number and all others. -/
theorem foldl_better (h : Placed beyond start place) (acc : Binary64) (xs : List Binary64) :
    IsBest place (acc :: xs) (xs.foldl (better fun x y => beyond x y) acc) := by
  induction xs generalizing acc with
  | nil => exact ⟨by simp, fun _ => List.mem_cons_self, fun _ => List.forall_mem_singleton.2 (Int.le_refl _)⟩
  | cons y ys ih => exact (ih (better (fun x y => beyond x y) acc y)).of_better h

/-- **A fold from the last number** of the order gives the extremum of all others. -/
theorem isExtremum_extremum (h : Placed beyond start place) (hxs : xs ≠ []) :
    IsExtremum beyond xs (extremum (fun x y => beyond x y) start xs) := by
  obtain ⟨hnan, hmem, hle⟩ := foldl_better h start xs
  rw [extremum]
  generalize xs.foldl (better fun x y => decide (beyond x y)) start = x at hnan hmem hle ⊢
  rw [List.exists_mem_cons_iff, h.isNaN_start, Bool.false_eq_true, false_or] at hnan
  simp only [List.forall_mem_cons, h.isNaN_start, true_and] at hmem hle
  have hx := isNaN_eq_false_of_iff hnan
  constructor
  case isNaN_iff => exact hnan
  case attained =>
    intro hall
    rcases List.mem_cons.1 (hmem hall) with rfl | hmem
    · -- then all numbers equal the start
      obtain ⟨y, ys, rfl⟩ := List.exists_cons_of_ne_nil hxs
      have hy := hall y List.mem_cons_self
      refine ⟨y, List.mem_cons_self, (h.beq_iff h.isNaN_start hy).2 ?_⟩
      exact Int.le_antisymm (h.least hy) ((hle hall).2 y List.mem_cons_self)
    · exact ⟨x, hmem, (h.beq_iff (hx hall) (hx hall)).2 rfl⟩
  case unsurpassed =>
    intro hall y hy
    rw [h.beyond_iff (hall y hy) (hx hall)]
    exact Int.not_lt.2 ((hle hall).2 y hy)

end

/-! ## Operands -/

/-- **What a real operation sees** of its operands: the real parts, unless one of them has an imaginary part. -/
theorem mapM_realOperand (name : String) (args : List Value) :
    args.mapM (realOperand name) =
      if ∀ v ∈ args, v.isReal = true then .ok (args.map fun v => v.toComplex.re)
      else .error (.complexUnsupported name) := by
  induction args with
  | nil => rfl
  | cons v args ih =>
    have hv : realOperand name v =
        if v.isReal = true then .ok v.toComplex.re else .error (.complexUnsupported name) := by
      rw [realOperand, v.isReal_eq, bne]
      split <;> simp_all
    rw [List.mapM_cons, ih, hv]
    simp only [List.forall_mem_cons]
    by_cases hreal : v.isReal = true
    · simp only [hreal, if_true, true_and, ok_bind]
      split <;> rfl
    · have hboth : ¬(v.isReal = true ∧ ∀ w ∈ args, w.isReal = true) := fun h => hreal h.1
      rw [if_neg hreal, if_neg hboth, error_bind]

/-- the numbers are equal, or both are NaN -/
def Complex.Agrees (z w : Complex) : Prop := (z == w) = true ∨ (z.re.isNaN = true ∧ w.re.isNaN = true)

theorem agrees_ofReal {x y : Binary64} (h : x.Agrees y) : (Complex.ofReal x).Agrees (.ofReal y) := by
  refine h.imp_left fun heq => ?_
  have hbeq : (Complex.ofReal x == Complex.ofReal y) = ((x == y) && ((0 : Binary64) == 0)) := rfl
  rw [hbeq, heq]
  decide

namespace Operation

/-- the operation gives the extremum of its operands -/
structure GivesExtremum (p : Operation) (beyond : Binary64 → Binary64 → Prop) : Prop where
  /-- an operand with an imaginary part is refused wherever it stands, and nothing else is refused so -/
  refused : ∀ args, p.call args = .error (.domain (.complexUnsupported p.name)) ↔ ∃ v ∈ args, v.isReal = false
  given : ∀ args, args ≠ [] → (∀ v ∈ args, v.isReal = true) →
    ∃ x, p.call args = .ok (.ofReal x) ∧ IsExtremum beyond (args.map fun v => v.toComplex.re) x
  /-- neither the order of the operands matters nor how often one is given -/
  alike : ∀ args args', (∀ v, v ∈ args ↔ v ∈ args') → Alike Eq Complex.Agrees (p.call args) (p.call args')

/-- a fold over one or more real operands -/
def folding (name : String) (wins : Binary64 → Binary64 → Bool) (start : Binary64) : Operation :=
  ⟨name, .atLeast 1, onReal name fun xs => .ok (extremum wins start xs)⟩

theorem call_folding (name : String) (wins : Binary64 → Binary64 → Bool) (start : Binary64) (args : List Value) :
    (folding name wins start).call args =
      if args = [] then .error (.arity name (.atLeast 1) 0)
      else if ∀ v ∈ args, v.isReal = true then .ok (.ofReal (extremum wins start (args.map fun v => v.toComplex.re)))
      else .error (.domain (.complexUnsupported name)) := by
  cases args with
  | nil => rfl
  | cons v args =>
    have haccepts : (folding name wins start).arity.accepts (v :: args).length = true := by
      simp [folding, Arity.accepts]
    rw [call, if_pos haccepts, if_neg (List.cons_ne_nil v args)]
    simp only [folding, onReal, mapM_realOperand]
    split <;> rfl

/-- **A fold in an order** from its last number on gives the extremum of the operands. -/
theorem givesExtremum_folding {beyond : Binary64 → Binary64 → Prop} [DecidableRel beyond] {start : Binary64}
    {place : Binary64 → Int} (h : Placed beyond start place) (name : String) :
    (folding name (fun x y => beyond x y) start).GivesExtremum beyond := by
  have hextremum : ∀ args : List Value, args ≠ [] → IsExtremum beyond (args.map fun v => v.toComplex.re)
      (extremum (fun x y => beyond x y) start (args.map fun v => v.toComplex.re)) :=
    fun args hargs => isExtremum_extremum h (by simpa using hargs)
  constructor
  case refused =>
    intro args
    rw [call_folding]
    split
    case isTrue hnil => simp [hnil]
    case isFalse =>
      split
      case isTrue hreal => simpa using hreal
      case isFalse hreal => simpa [folding] using hreal
  case given =>
    intro args hargs hreal
    refine ⟨_, ?_, hextremum args hargs⟩
    rw [call_folding, if_neg hargs, if_pos hreal]
  case alike =>
    intro args args' hsame
    have hnil : args = [] ↔ args' = [] := by simp only [List.eq_nil_iff_forall_not_mem, hsame]
    simp only [call_folding, hnil, hsame]
    split
    case isTrue => exact .error rfl
    case isFalse hargs' =>
      split
      case isTrue =>
        have hargs : args ≠ [] := fun h => hargs' (hnil.1 h)
        refine .ok (agrees_ofReal ((hextremum args hargs).agrees h (hextremum args' hargs') fun x => ?_))
        simp only [List.mem_map, hsame]
      case isFalse => exact .error rfl

end Operation

/-! ## The functions -/

theorem function?_extended_max (entropy : UInt64) :
    (Library.extended entropy).function? "max" = some (.folding "max" (fun x y => x > y) (-Binary64.infinity)) := by
  rw [Library.extended_eq_registerAll, Library.function?_registerAll]
  rfl

theorem function?_extended_min (entropy : UInt64) :
    (Library.extended entropy).function? "min" = some (.folding "min" (fun x y => x < y) Binary64.infinity) := by
  rw [Library.extended_eq_registerAll, Library.function?_registerAll]
  rfl

/-- **`max` and `min`** of the extended library give the extrema of their operands: they refuse an operand with an
imaginary part at any place, are NaN beside NaN, and otherwise equal an operand that none is greater, or less, than.
Operands in another order, or given more than once, yield an equal number or NaN again. -/
theorem extrema_of_extended (entropy : UInt64) :
    (∃ p, (Library.extended entropy).function? "max" = some p ∧ p.name = "max" ∧ p.GivesExtremum (· > ·)) ∧
      ∃ p, (Library.extended entropy).function? "min" = some p ∧ p.name = "min" ∧ p.GivesExtremum (· < ·) :=
  ⟨⟨_, function?_extended_max entropy, rfl, Operation.givesExtremum_folding Binary64.placed_gt "max"⟩,
    ⟨_, function?_extended_min entropy, rfl, Operation.givesExtremum_folding Binary64.placed_lt "min"⟩⟩

/-- NaN between two numbers, an operand with an imaginary part behind it, and infinities in another order -/
theorem extrema_of_extended_mixed :
    (∃ p, (Library.extended 0).function? "max" = some p ∧
      (∃ x, p.call [.real 3, .complex ⟨.nan, 0⟩, .real 7] = .ok (.ofReal x) ∧ x.isNaN = true) ∧
      p.call [.real 3, .complex ⟨.nan, 0⟩, .complex .unit] = .error (.domain (.complexUnsupported "max"))) ∧
    ∃ p, (Library.extended 0).function? "min" = some p ∧
      Alike Eq Complex.Agrees (p.call [.real Binary64.infinity, .real (-Binary64.infinity)])
        (p.call [.real (-Binary64.infinity), .real Binary64.infinity, .real Binary64.infinity]) := by
  obtain ⟨⟨p, hp, hname, hmax⟩, q, hq, -, hmin⟩ := extrema_of_extended 0
  refine ⟨⟨p, hp, ?_, ?_⟩, q, hq, ?_⟩
  · obtain ⟨x, hx, hextremum⟩ := hmax.given [.real 3, .complex ⟨.nan, 0⟩, .real 7] (by decide) (by decide)
    exact ⟨x, hx, hextremum.isNaN_iff.2 (by decide)⟩
  · rw [← hname]
    exact (hmax.refused _).2 (by decide)
  · refine hmin.alike _ _ fun v => ?_
    simp only [List.mem_cons, List.not_mem_nil, or_false, or_self]
    exact or_comm

end ComplexFormula

/-
Steps that can fail, one after the other: the first fault ends them.

- `bind_eq_ok_iff`: two steps succeed together when each does; `bind_eq_error_iff`: the first fault is that of both.
- `mapM_eq_ok_iff`, `exists_of_mapM_eq_ok`: so do the steps over a list; `mapM_eq_error_iff`: they fail with the first
  entry that does.
- `EndsIn`: a run that ends in a result of some kind or in a fault of some kind.
- `EndsIn.bind`, `EndsIn.mapM`: steps one after the other.
- `Kept`: a result of one run is the result of another too.
- `Alike`: two runs that end in related results or in related faults.
- `Alike.join`: runs that end like a third one end alike.
- `Alike.bind`, `Alike.mapM`: alike steps one after the other are alike together.
-/
import Mathlib.Data.List.Forall2

namespace ComplexFormula

variable {ε α β : Type}

@[simp] theorem ok_bind (a : α) (f : α → Except ε β) : (Except.ok a >>= f) = f a := rfl

@[simp] theorem error_bind (fault : ε) (f : α → Except ε β) : (Except.error fault >>= f) = .error fault := rfl

@[simp] theorem pure_eq_ok (a : α) : (pure a : Except ε α) = .ok a := rfl

theorem bind_eq_ok_iff {x : Except ε α} {f : α → Except ε β} {b : β} :
    (x >>= f) = .ok b ↔ ∃ a, x = .ok a ∧ f a = .ok b := by
  cases x <;> simp

theorem bind_eq_error_iff {x : Except ε α} {f : α → Except ε β} {e : ε} :
    (x >>= f) = .error e ↔ x = .error e ∨ ∃ a, x = .ok a ∧ f a = .error e := by
  cases x <;> simp

theorem map_eq_error_iff {x : Except ε α} {f : α → β} {e : ε} : x.map f = .error e ↔ x = .error e := by
  cases x <;> simp [Except.map]

theorem map_eq_ok_iff {x : Except ε α} {f : α → β} {b : β} : x.map f = .ok b ↔ ∃ a, x = .ok a ∧ f a = b := by
  cases x <;> simp [Except.map]

theorem mapM_eq_ok_iff {f : α → Except ε β} {as : List α} {bs : List β} :
    as.mapM f = .ok bs ↔ List.Forall₂ (fun a b => f a = .ok b) as bs := by
  induction as generalizing bs with
  | nil => cases bs <;> simp
  | cons a as ih =>
    simp only [List.mapM_cons, bind_eq_ok_iff, pure_eq_ok, ih, List.forall₂_cons_left_iff, Except.ok.injEq]
    constructor
    · rintro ⟨b, hb, bs', hbs, rfl⟩
      exact ⟨b, bs', hb, hbs, rfl⟩
    · rintro ⟨b, bs', hb, hbs, rfl⟩
      exact ⟨b, hb, bs', hbs, rfl⟩

theorem exists_of_forall₂ {r : α → β → Prop} {as : List α} {bs : List β} (h : List.Forall₂ r as bs) {b : β}
    (hb : b ∈ bs) : ∃ a ∈ as, r a b := by
  induction h with
  | nil => cases hb
  | @cons a b' as bs hab _ ih =>
    rcases List.mem_cons.1 hb with rfl | hb
    · exact ⟨a, List.mem_cons_self, hab⟩
    · obtain ⟨a', ha', h⟩ := ih hb
      exact ⟨a', List.mem_cons_of_mem a ha', h⟩

/-- every result belongs to one of the entries -/
theorem exists_of_mapM_eq_ok {f : α → Except ε β} {as : List α} {bs : List β} (h : as.mapM f = .ok bs) {b : β}
    (hb : b ∈ bs) : ∃ a ∈ as, f a = .ok b := exists_of_forall₂ (mapM_eq_ok_iff.1 h) hb

/-- the steps over a list fail with the first entry that does -/
theorem mapM_eq_error_iff {f : α → Except ε β} {as : List α} {e : ε} :
    as.mapM f = .error e ↔ ∃ before a after, as = before ++ a :: after ∧ (∀ b ∈ before, ∃ c, f b = .ok c) ∧
      f a = .error e := by
  induction as with
  | nil => simp
  | cons a as ih =>
    simp only [List.mapM_cons, bind_eq_error_iff, pure_eq_ok, reduceCtorEq, and_false, exists_false, or_false, ih]
    constructor
    · rintro (ha | ⟨b, hb, before, c, after, rfl, hbefore, hc⟩)
      · exact ⟨[], a, as, rfl, List.forall_mem_nil _, ha⟩
      · exact ⟨a :: before, c, after, rfl, List.forall_mem_cons.2 ⟨⟨b, hb⟩, hbefore⟩, hc⟩
    · rintro ⟨before, c, after, has, hbefore, hc⟩
      cases before with
      | nil =>
        obtain ⟨rfl, rfl⟩ := List.cons.inj has
        exact .inl hc
      | cons b before =>
        obtain ⟨rfl, rfl⟩ := List.cons.inj has
        obtain ⟨⟨d, hd⟩, hbefore⟩ := List.forall_mem_cons.1 hbefore
        exact .inr ⟨d, hd, before, c, after, rfl, hbefore, hc⟩

/-! ## One run -/

/-- the run ends in a result with one property, or in a fault with another -/
inductive EndsIn {ε α : Type} (q : ε → Prop) (r : α → Prop) : Except ε α → Prop where
  | ok {a} (h : r a) : EndsIn q r (.ok a)
  | error {e} (h : q e) : EndsIn q r (.error e)

/-- no property in particular -/
abbrev Whatever {α : Type} (_ : α) : Prop := True

namespace EndsIn

variable {q : ε → Prop} {r : α → Prop} {s : β → Prop} {x : Except ε α}

theorem of_ok {a : α} (h : EndsIn q r (.ok a)) : r a := by
  cases h with
  | ok h => exact h

theorem of_error {e : ε} (h : EndsIn q r (.error e)) : q e := by
  cases h with
  | error h => exact h

/-- a run that is known to have a result -/
theorem of_eq_ok {a : α} (h : EndsIn q r x) (hx : x = .ok a) : r a := by
  rw [hx] at h
  exact h.of_ok

/-- a run that is known to have a fault -/
theorem of_eq_error {e : ε} (h : EndsIn q r x) (hx : x = .error e) : q e := by
  rw [hx] at h
  exact h.of_error

theorem exists_ok_or_error (h : EndsIn q r x) : (∃ a, x = .ok a ∧ r a) ∨ ∃ e, x = .error e ∧ q e := by
  cases h with
  | ok h => exact .inl ⟨_, rfl, h⟩
  | error h => exact .inr ⟨_, rfl, h⟩

theorem imp {q' : ε → Prop} {r' : α → Prop} (h : EndsIn q r x) (hq : ∀ e, q e → q' e) (hr : ∀ a, r a → r' a) :
    EndsIn q' r' x := by
  cases h with
  | ok h => exact .ok (hr _ h)
  | error h => exact .error (hq _ h)

theorem bind {f : α → Except ε β} (h : EndsIn q r x) (hf : ∀ a, r a → EndsIn q s (f a)) : EndsIn q s (x >>= f) := by
  cases h with
  | ok h => exact hf _ h
  | error h => exact .error h

theorem mapM {f : α → Except ε β} {as : List α} (h : ∀ a ∈ as, EndsIn q s (f a)) :
    EndsIn q (fun bs => ∀ b ∈ bs, s b) (as.mapM f) := by
  induction as with
  | nil => exact .ok (List.forall_mem_nil _)
  | cons a as ih =>
    obtain ⟨ha, has⟩ := List.forall_mem_cons.1 h
    rw [List.mapM_cons]
    exact ha.bind fun _ hb => (ih has).bind fun _ hbs => .ok (List.forall_mem_cons.2 ⟨hb, hbs⟩)

end EndsIn

/-! ## Two runs -/

/-- whatever the first run results in, the second one results in too; where the first one fails, the second one may
end in any way -/
def Kept (x y : Except ε α) : Prop := ∀ a, x = .ok a → y = .ok a

namespace Kept

theorem refl (x : Except ε α) : Kept x x := fun _ h => h

theorem bind {x y : Except ε α} {f g : α → Except ε β} (h : Kept x y) (hf : ∀ a, Kept (f a) (g a)) :
    Kept (x >>= f) (y >>= g) := by
  intro b hb
  obtain ⟨a, ha, hb⟩ := bind_eq_ok_iff.1 hb
  exact bind_eq_ok_iff.2 ⟨a, h a ha, hf a b hb⟩

theorem mapM {f g : α → Except ε β} (hf : ∀ a, Kept (f a) (g a)) (as : List α) : Kept (as.mapM f) (as.mapM g) := by
  intro bs hbs
  exact mapM_eq_ok_iff.2 ((mapM_eq_ok_iff.1 hbs).imp fun a b => hf a b)

end Kept

/-- two runs end alike: in related results, or in related faults -/
inductive Alike {ε ε' α β : Type} (q : ε → ε' → Prop) (r : α → β → Prop) : Except ε α → Except ε' β → Prop where
  | ok {a b} (h : r a b) : Alike q r (.ok a) (.ok b)
  | error {e e'} (h : q e e') : Alike q r (.error e) (.error e')

namespace Alike

variable {ε' γ δ : Type} {q : ε → ε' → Prop} {r : α → β → Prop} {s : γ → δ → Prop} {x : Except ε α} {y : Except ε' β}

theorem exists_ok_or_error (h : Alike q r x y) :
    (∃ a b, x = .ok a ∧ y = .ok b ∧ r a b) ∨ ∃ e e', x = .error e ∧ y = .error e' ∧ q e e' := by
  cases h with
  | ok h => exact .inl ⟨_, _, rfl, rfl, h⟩
  | error h => exact .inr ⟨_, _, rfl, rfl, h⟩

/-- where the first run has a result, the second one has a result that is related to it -/
theorem exists_of_eq_ok (h : Alike q r x y) {a : α} (hx : x = .ok a) : ∃ b, y = .ok b ∧ r a b := by
  rw [hx] at h
  cases h with
  | ok h => exact ⟨_, rfl, h⟩

theorem ok_iff {x : Except ε α} {y : Except ε' α} (h : Alike q Eq x y) {a : α} : x = .ok a ↔ y = .ok a := by
  cases h with
  | ok h => rw [h, Except.ok.injEq, Except.ok.injEq]
  | error h => simp

/-- two runs that end like a third one -/
theorem join {r : α → γ → Prop} {s : β → γ → Prop} {t : α → β → Prop} {x : Except ε α} {y : Except ε β}
    {z : Except ε γ} (hx : Alike Eq r x z) (hy : Alike Eq s y z) (h : ∀ a b c, r a c → s b c → t a b) :
    Alike Eq t x y := by
  cases hx with
  | ok ha =>
    cases hy with
    | ok hb => exact .ok (h _ _ _ ha hb)
  | error he =>
    cases hy with
    | error he' => exact .error (he.trans he'.symm)

theorem bind {f : α → Except ε γ} {g : β → Except ε' δ} (h : Alike q r x y)
    (hf : ∀ a b, r a b → Alike q s (f a) (g b)) : Alike q s (x >>= f) (y >>= g) := by
  cases h with
  | ok h => exact hf _ _ h
  | error h => exact .error h

theorem mapM {f : α → Except ε γ} {g : β → Except ε' δ} {as : List α} {bs : List β}
    (h : List.Forall₂ (fun a b => Alike q s (f a) (g b)) as bs) :
    Alike q (List.Forall₂ s) (as.mapM f) (bs.mapM g) := by
  induction h with
  | nil => exact .ok .nil
  | cons hab _ ih =>
    rw [List.mapM_cons, List.mapM_cons]
    exact hab.bind fun _ _ hcd => ih.bind fun _ _ hrest => .ok (.cons hcd hrest)

end Alike

theorem alike_eq_iff {x y : Except ε α} : Alike Eq Eq x y ↔ x = y := by
  constructor
  · intro h
    cases h with
    | ok h | error h => rw [h]
  · rintro rfl
    cases x with
    | ok a => exact .ok rfl
    | error e => exact .error rfl

end ComplexFormula

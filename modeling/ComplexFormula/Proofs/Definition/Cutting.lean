/-
Tokens cut at separators: what stands in front of the first one, and behind each of them.

- `split_append`, `split_separator`: how tokens are cut, from the front.
- `Parted`, `Separated`: tokens put together from pieces and separators.
- `split_eq_iff`, `pieces_eq_iff`: they are cut just as they were put together.
- `splitIf?_eq_some_iff`: tokens cut at the first `if`.
-/
import ComplexFormula.Declaration.Reading
import Mathlib.Data.List.TakeWhile

namespace ComplexFormula

/-! ## Cutting -/

section

variable {isSeparator : Token → Bool} {ts : List Token}

/-- tokens in front of everything else, none of them a separator, belong to the first piece -/
theorem split_append (h : ∀ t ∈ ts, isSeparator t = false) (us : List Token) :
    split isSeparator (ts ++ us) = (ts ++ (split isSeparator us).1, (split isSeparator us).2) := by
  induction ts with
  | nil => rfl
  | cons t ts ih =>
    have hrest := ih fun u hu => h u (List.mem_cons_of_mem t hu)
    unfold split at hrest ⊢
    rw [List.cons_append, List.foldr_cons, hrest]
    simp [splitStep, h t List.mem_cons_self]

/-- tokens without a separator are one piece -/
theorem split_of_forall (h : ∀ t ∈ ts, isSeparator t = false) : split isSeparator ts = (ts, []) := by
  simpa [split] using split_append h []

/-- a separator ends the first piece -/
theorem split_separator {s : Token} (h : isSeparator s = true) (us : List Token) :
    split isSeparator (s :: us) = ([], (s, (split isSeparator us).1) :: (split isSeparator us).2) := by
  rw [split, List.foldr_cons]
  simp [splitStep, h, split]

theorem pieces_of_forall (h : ∀ t ∈ ts, isSeparator t = false) : pieces isSeparator ts = [ts] := by
  simp [pieces, split_of_forall h]

theorem pieces_append {s : Token} (h : ∀ t ∈ ts, isSeparator t = false) (hs : isSeparator s = true) (us : List Token) :
    pieces isSeparator (ts ++ s :: us) = ts :: pieces isSeparator us := by
  simp [pieces, split_append h, split_separator hs]

end

/-! ## Separators -/

/-- the tokens in front of the first separator, and each separator with the tokens up to the next one -/
inductive Parted (isSeparator : Token → Bool) : List Token → List Token → List (Token × List Token) → Prop where
  | last {ts} (hts : ∀ t ∈ ts, isSeparator t = false) : Parted isSeparator ts ts []
  | cons {ts s us first others} (hts : ∀ t ∈ ts, isSeparator t = false) (hs : isSeparator s = true)
    (h : Parted isSeparator us first others) : Parted isSeparator (ts ++ s :: us) ts ((s, first) :: others)

/-- the tokens are the pieces, in order, with a separator between any two neighbours and none within a piece -/
def Separated (isSeparator : Token → Bool) (ts : List Token) (ps : List (List Token)) : Prop :=
  ∃ first others, Parted isSeparator ts first others ∧ ps = first :: others.map Prod.snd

section

variable {isSeparator : Token → Bool} {ts first : List Token} {others : List (Token × List Token)}

theorem Parted.split_eq (h : Parted isSeparator ts first others) : split isSeparator ts = (first, others) := by
  induction h with
  | last hts => exact split_of_forall hts
  | cons hts hs _ ih => rw [split_append hts, split_separator hs, ih, List.append_nil]

theorem exists_parted (isSeparator : Token → Bool) (ts : List Token) :
    ∃ first others, Parted isSeparator ts first others := by
  induction ts with
  | nil => exact ⟨[], [], .last (List.forall_mem_nil _)⟩
  | cons t ts ih =>
    obtain ⟨first, others, h⟩ := ih
    cases ht : isSeparator t with
    | true => exact ⟨[], (t, first) :: others, .cons (List.forall_mem_nil _) ht h⟩
    | false =>
      refine ⟨t :: first, others, ?_⟩
      cases h with
      | last hts => exact .last (List.forall_mem_cons.2 ⟨ht, hts⟩)
      | cons hts hs h => exact .cons (List.forall_mem_cons.2 ⟨ht, hts⟩) hs h

theorem split_eq_iff : split isSeparator ts = (first, others) ↔ Parted isSeparator ts first others := by
  refine ⟨fun h => ?_, Parted.split_eq⟩
  obtain ⟨first', others', hparted⟩ := exists_parted isSeparator ts
  obtain ⟨rfl, rfl⟩ := Prod.mk.inj (h.symm.trans hparted.split_eq)
  exact hparted

/-- cutting invents no tokens -/
theorem Parted.subset (h : Parted isSeparator ts first others) : first ⊆ ts ∧ ∀ p ∈ others, p.2 ⊆ ts := by
  induction h with
  | last => exact ⟨List.Subset.refl _, by simp⟩
  | @cons ts s us first others _ _ _ ih =>
    have hbehind : us ⊆ ts ++ s :: us := List.subset_append_of_subset_right _ (List.subset_cons_self _ _)
    refine ⟨List.subset_append_left _ _, List.forall_mem_cons.2 ⟨List.Subset.trans ih.1 hbehind, ?_⟩⟩
    intro p hp
    exact List.Subset.trans (ih.2 p hp) hbehind

/-- the separators are tokens of the text -/
theorem Parted.mem (h : Parted isSeparator ts first others) : ∀ p ∈ others, p.1 ∈ ts := by
  induction h with
  | last => simp
  | @cons ts s us first others _ _ _ ih =>
    refine List.forall_mem_cons.2 ⟨List.mem_append_right ts List.mem_cons_self, ?_⟩
    intro p hp
    exact List.mem_append_right ts (List.mem_cons_of_mem s (ih p hp))

theorem Separated.subset {ps : List (List Token)} (h : Separated isSeparator ts ps) : ∀ p ∈ ps, p ⊆ ts := by
  obtain ⟨first, others, hparted, rfl⟩ := h
  rw [List.forall_mem_cons, List.forall_mem_map]
  exact hparted.subset

/-- a change of tokens that keeps the separators keeps the pieces -/
theorem Parted.map {f : Token → Token} (hf : ∀ t, isSeparator (f t) = isSeparator t)
    (h : Parted isSeparator ts first others) :
    Parted isSeparator (ts.map f) (first.map f) (others.map fun p => (f p.1, p.2.map f)) := by
  induction h with
  | last hts => exact .last (List.forall_mem_map.2 fun t ht => (hf t).trans (hts t ht))
  | cons hts hs _ ih =>
    rw [List.map_append, List.map_cons]
    exact .cons (List.forall_mem_map.2 fun t ht => (hf t).trans (hts t ht)) ((hf _).trans hs) ih

theorem Separated.map {f : Token → Token} (hf : ∀ t, isSeparator (f t) = isSeparator t) {ps : List (List Token)}
    (h : Separated isSeparator ts ps) : Separated isSeparator (ts.map f) (ps.map (List.map f)) := by
  obtain ⟨first, others, hparted, rfl⟩ := h
  refine ⟨_, _, hparted.map hf, ?_⟩
  rw [List.map_cons, List.map_map, List.map_map]
  rfl

theorem Separated.ne_nil {ps : List (List Token)} (h : Separated isSeparator ts ps) : ps ≠ [] := by
  obtain ⟨first, others, -, rfl⟩ := h
  exact List.cons_ne_nil _ _

/-- **Pieces** are what stands between the separators. -/
theorem pieces_eq_iff {ps : List (List Token)} : pieces isSeparator ts = ps ↔ Separated isSeparator ts ps := by
  obtain ⟨first, others, h⟩ := exists_parted isSeparator ts
  rw [pieces, h.split_eq]
  constructor
  · rintro rfl
    exact ⟨first, others, h, rfl⟩
  · rintro ⟨first', others', h', rfl⟩
    obtain ⟨rfl, rfl⟩ := Prod.mk.inj (h.split_eq.symm.trans h'.split_eq)
    rfl

theorem parted_split (isSeparator : Token → Bool) (ts : List Token) :
    Parted isSeparator ts (split isSeparator ts).1 (split isSeparator ts).2 := split_eq_iff.1 rfl

theorem subset_of_mem_pieces {p : List Token} (hp : p ∈ pieces isSeparator ts) : p ⊆ ts :=
  (pieces_eq_iff.1 rfl : Separated isSeparator ts (pieces isSeparator ts)).subset p hp

end

/-! ## The first `if` -/

section

variable {us vs : List Token}

theorem splitIf?_append {t : Token} (hus : ∀ u ∈ us, u.is .keyword "if" = false) (ht : t.is .keyword "if" = true) :
    splitIf? (us ++ t :: vs) = some (us, t, vs) := by
  have hpos : ∀ u ∈ us, (!u.is .keyword "if") = true := fun u hu => by simp [hus u hu]
  simp [splitIf?, List.dropWhile_append_of_pos hpos, List.takeWhile_append_of_pos hpos, ht]

theorem splitIf?_of_forall (hus : ∀ u ∈ us, u.is .keyword "if" = false) : splitIf? us = none := by
  have hpos : ∀ u ∈ us, (!u.is .keyword "if") = true := fun u hu => by simp [hus u hu]
  simp [splitIf?, List.dropWhile_eq_nil_iff.2 hpos]

theorem splitIf?_eq_some_iff {piece : List Token} {t : Token} :
    splitIf? piece = some (us, t, vs) ↔
      piece = us ++ t :: vs ∧ (∀ u ∈ us, u.is .keyword "if" = false) ∧ t.is .keyword "if" = true := by
  constructor
  · intro h
    unfold splitIf? at h
    split at h
    case h_1 => cases h
    case h_2 opener behind hdrop =>
      simp only [Option.some.injEq, Prod.mk.injEq] at h
      obtain ⟨rfl, rfl, rfl⟩ := h
      refine ⟨?_, fun u hu => by simpa using List.mem_takeWhile_imp hu, ?_⟩
      · rw [← hdrop, List.takeWhile_append_dropWhile]
      · have hhead := List.head?_dropWhile_not (!Token.is · .keyword "if") piece
        simpa [hdrop] using hhead
  · rintro ⟨rfl, hus, ht⟩
    exact splitIf?_append hus ht

/-- the parts of a piece that is cut are tokens of it -/
theorem subset_of_splitIf? {piece : List Token} {t : Token} (h : splitIf? piece = some (us, t, vs)) :
    us ⊆ piece ∧ t ∈ piece ∧ vs ⊆ piece := by
  obtain ⟨rfl, -, -⟩ := splitIf?_eq_some_iff.1 h
  obtain ⟨ht, hvs⟩ := List.cons_subset.1 (List.subset_append_right us (t :: vs))
  exact ⟨List.subset_append_left us _, ht, hvs⟩

theorem splitIf?_eq_none_iff {piece : List Token} :
    splitIf? piece = none ↔ ∀ t ∈ piece, t.is .keyword "if" = false := by
  refine ⟨fun h => ?_, splitIf?_of_forall⟩
  unfold splitIf? at h
  split at h
  case h_1 hdrop => simpa [List.dropWhile_eq_nil_iff] using hdrop
  case h_2 => cases h

end

end ComplexFormula

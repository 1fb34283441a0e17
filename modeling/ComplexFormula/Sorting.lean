/-
Sorting: entries are put into their places one after the other, from the last to the first, each in front of all that
it may precede. Entries that may precede each other stay as they stood.

- `Sorting.place`: one entry put into its place.
- `Sorting.sort`: the entries in order.
- `Sorting.perm_sort`, `Sorting.pairwise_sort`: the same entries, in order, with ties as they stood.
-/

namespace ComplexFormula.Sorting

variable {α : Type}

/-- the entries with `a` in front of the first that it may precede -/
def place (le : α → α → Bool) (a : α) : List α → List α
  | [] => [a]
  | b :: l => if le a b then a :: b :: l else b :: place le a l

/-- the entries in order -/
def sort (le : α → α → Bool) (l : List α) : List α := l.foldr (place le) []

variable {le : α → α → Bool} {a : α} {l : List α}

theorem perm_place (le : α → α → Bool) (a : α) (l : List α) : (place le a l).Perm (a :: l) := by
  induction l with
  | nil => exact .refl _
  | cons b l ih =>
    unfold place
    split
    · exact .refl _
    · exact (ih.cons b).trans (.swap a b l)

theorem perm_sort (le : α → α → Bool) (l : List α) : (sort le l).Perm l := by
  induction l with
  | nil => exact .refl _
  | cons a l ih => exact (perm_place le a (sort le l)).trans (ih.cons a)

/-- the first may precede the second, and where they tie it stood in front of it -/
def InOrder (le : α → α → Bool) (front : α → α → Prop) (a b : α) : Prop :=
  le a b = true ∧ (le b a = true → front a b)

/-- an entry that stood in front of all others is put into its place -/
theorem pairwise_place {front : α → α → Prop} (htotal : ∀ a b, le a b = true ∨ le b a = true)
    (htrans : ∀ a b c, le a b = true → le b c = true → le a c = true) (hfront : ∀ b ∈ l, front a b)
    (h : l.Pairwise (InOrder le front)) : (place le a l).Pairwise (InOrder le front) := by
  induction l with
  | nil => exact List.pairwise_singleton _ _
  | cons b l ih =>
    obtain ⟨hb, hl⟩ := List.pairwise_cons.1 h
    unfold place
    split
    case isTrue hab =>
      refine List.pairwise_cons.2 ⟨fun c hc => ⟨?_, fun _ => hfront c hc⟩, h⟩
      rcases List.mem_cons.1 hc with rfl | hc
      · exact hab
      · exact htrans a b c hab (hb c hc).1
    case isFalse hab =>
      refine List.pairwise_cons.2 ⟨fun c hc => ?_, ih (fun c hc => hfront c (List.mem_cons_of_mem b hc)) hl⟩
      rcases List.mem_cons.1 ((perm_place le a l).mem_iff.1 hc) with rfl | hc
      · exact ⟨(htotal c b).resolve_left hab, fun hcb => absurd hcb hab⟩
      · exact hb c hc

/-- **Sorted entries** are in order, and those that tie stand as they stood. -/
theorem pairwise_sort {front : α → α → Prop} (htotal : ∀ a b, le a b = true ∨ le b a = true)
    (htrans : ∀ a b c, le a b = true → le b c = true → le a c = true) (h : l.Pairwise front) :
    (sort le l).Pairwise (InOrder le front) := by
  induction l with
  | nil => exact .nil
  | cons a l ih =>
    obtain ⟨ha, hl⟩ := List.pairwise_cons.1 h
    exact pairwise_place htotal htrans (fun b hb => ha b ((perm_sort le l).mem_iff.1 hb)) (ih hl)

end ComplexFormula.Sorting

/-
Tables: named entries in ascending order of names, each name once. The order makes a table a function of its lookups:
how it was filled leaves no trace.

- `Table.insert`: the entry of a name is replaced or added.
- `Table.get?`: the lookup, the view through which a table is understood.
- `Table.names`: the names in ascending order.
- `Table.get?_insert`: what an insertion does to the lookups.
-/

namespace ComplexFormula

/-- entries with strictly ascending names -/
structure Table (α : Type) where
  entries : List (String × α)
  ascending : entries.Pairwise fun a b => a.1 < b.1

namespace Table

variable {α : Type}

/-- the table without entries -/
def empty : Table α := ⟨[], .nil⟩

instance : EmptyCollection (Table α) := ⟨empty⟩

/-- the entries with that of `name` replaced or added in its place -/
def place (name : String) (x : α) : List (String × α) → List (String × α)
  | [] => [(name, x)]
  | e :: rest =>
    if name < e.1 then (name, x) :: e :: rest
    else if name = e.1 then (name, x) :: rest
    else e :: place name x rest

theorem mem_place {name : String} {x : α} {l : List (String × α)} {e : String × α} (h : e ∈ place name x l) :
    e = (name, x) ∨ e ∈ l := by
  induction l with
  | nil => exact Or.inl (List.mem_singleton.1 h)
  | cons d rest ih =>
    unfold place at h
    split at h
    · exact (List.mem_cons.1 h).imp_right id
    · split at h
      · exact (List.mem_cons.1 h).imp_right (List.mem_cons_of_mem d)
      · rcases List.mem_cons.1 h with h | h
        · exact Or.inr (h ▸ List.mem_cons_self)
        · exact (ih h).imp_right (List.mem_cons_of_mem d)

theorem lt_of_not_lt {a b : String} (h : ¬a < b) (hne : a ≠ b) : b < a := by
  rcases Decidable.em (b < a) with hba | hba
  · exact hba
  · exact absurd (String.le_antisymm (String.not_lt.1 hba) (String.not_lt.1 h)) hne

theorem place_ascending (name : String) (x : α) (l : List (String × α)) (h : l.Pairwise fun a b => a.1 < b.1) :
    (place name x l).Pairwise fun a b => a.1 < b.1 := by
  induction l with
  | nil => exact List.pairwise_singleton _ _
  | cons e rest ih =>
    obtain ⟨he, hrest⟩ := List.pairwise_cons.1 h
    unfold place
    split
    · rename_i hlt
      refine List.pairwise_cons.2 ⟨fun d hd => ?_, h⟩
      rcases List.mem_cons.1 hd with rfl | hd
      · exact hlt
      · exact String.lt_trans hlt (he d hd)
    · rename_i hlt
      split
      · rename_i heq
        exact List.pairwise_cons.2 ⟨fun d hd => heq ▸ he d hd, hrest⟩
      · rename_i hne
        refine List.pairwise_cons.2 ⟨fun d hd => ?_, ih hrest⟩
        rcases mem_place hd with rfl | hd
        · exact lt_of_not_lt hlt hne
        · exact he d hd

/-- the table with the entry of `name` replaced or added -/
def insert (t : Table α) (name : String) (x : α) : Table α :=
  ⟨place name x t.entries, place_ascending name x t.entries t.ascending⟩

/-- the entry of a name in a list of entries -/
def lookup (name : String) (l : List (String × α)) : Option α := (l.find? fun e => e.1 == name).map Prod.snd

/-- the entry of a name -/
def get? (t : Table α) (name : String) : Option α := lookup name t.entries

/-- the name has an entry -/
def contains (t : Table α) (name : String) : Bool := (t.get? name).isSome

/-- the names in ascending order -/
def names (t : Table α) : List String := t.entries.map Prod.fst

/-! ## Lookups -/

@[simp] theorem get?_empty (name : String) : (empty : Table α).get? name = none := rfl

theorem lookup_cons (name : String) (e : String × α) (l : List (String × α)) :
    lookup name (e :: l) = if e.1 = name then some e.2 else lookup name l := by
  by_cases h : e.1 = name <;> simp [lookup, h]

theorem lookup_place (name other : String) (x : α) (l : List (String × α)) (h : l.Pairwise fun a b => a.1 < b.1) :
    lookup other (place name x l) = if name = other then some x else lookup other l := by
  induction l with
  | nil => simp [place, lookup_cons]
  | cons e rest ih =>
    obtain ⟨he, hrest⟩ := List.pairwise_cons.1 h
    unfold place
    split
    · rw [lookup_cons]
    · split
      · rename_i heq
        rw [lookup_cons, lookup_cons, ← heq]
        split <;> rfl
      · rename_i hne
        rw [lookup_cons, ih hrest, lookup_cons]
        by_cases h1 : e.1 = other <;> by_cases h2 : name = other <;> simp_all

/-- an insertion changes the lookup of its own name and no other -/
theorem get?_insert (t : Table α) (name other : String) (x : α) :
    (t.insert name x).get? other = if name = other then some x else t.get? other :=
  lookup_place name other x t.entries t.ascending

end Table

end ComplexFormula

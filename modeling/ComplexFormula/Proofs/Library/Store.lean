/-
Libraries as stores. Whatever is registered, and in whatever order, a slot holds the entry that took it last, or else
what was there before; entries of other names and other tables leave it alone. The listings of a library are made of the
names that have an entry, each name once in each table and in ascending order, in whatever order they were collected.

- `Table.mem_names_iff`: the names of a table.
- `Library.sortedNames_eq`, `Library.Lists`: the listing of a table.
- `Library.held?`: the entry of a slot, one view of the three tables.
- `held?_register`: what one registration does to the slots.
- `Library.Latest`, `held?_registerAll`: what a whole sequence of registrations does.
- `Library.Filled`: libraries that were filled by registrations alone; `Filled.slot_eq`: every entry is under its own
  name.
- `registerAll_stores`: **the last entry wins**, in every lookup and every listing.
-/
import ComplexFormula.Proofs.Library.Extension
import ComplexFormula.Proofs.Library.Filling

namespace ComplexFormula

/-! ## Names of a table -/

namespace Table

variable {α : Type} {t : Table α} {name : String}

theorem mem_names_iff : name ∈ t.names ↔ ∃ x, t.get? name = some x := by
  constructor
  · intro h
    obtain ⟨e, he, rfl⟩ := List.mem_map.1 h
    exact ⟨e.2, (lookup_eq_some_iff t.ascending).2 he⟩
  · intro ⟨x, hx⟩
    exact List.mem_map_of_mem ((lookup_eq_some_iff t.ascending).1 hx)

theorem names_ascending (t : Table α) : t.names.Pairwise (· < ·) := List.pairwise_map.2 t.ascending

theorem names_nodup (t : Table α) : t.names.Nodup := t.names_ascending.imp String.ne_of_lt

theorem contains_iff : t.contains name = true ↔ ∃ x, t.get? name = some x := Option.isSome_iff_exists

end Table

/-! ## Listings -/

namespace Library

theorem pairwise_sortedNames (keys : List String) : (sortedNames keys).Pairwise (· ≤ ·) := by
  have hany : keys.Pairwise fun _ _ => True := List.pairwise_of_forall fun _ _ => trivial
  refine (Sorting.pairwise_sort (fun a b => ?_) (fun a b c hab hbc => ?_) hany).imp fun h => of_decide_eq_true h.1
  · rw [decide_eq_true_iff, decide_eq_true_iff]
    exact String.le_total a b
  · rw [decide_eq_true_iff] at hab hbc ⊢
    exact String.le_trans hab hbc

/-- **Sorting the keys** of a table, in whatever order they are collected, gives its names. -/
theorem sortedNames_eq {α : Type} {t : Table α} {keys : List String} (h : keys.Perm t.names) :
    sortedNames keys = t.names := by
  have hnames : t.names.Pairwise (· ≤ ·) := t.names_ascending.imp le_of_lt
  refine List.Perm.eq_of_pairwise ?_ (pairwise_sortedNames keys) hnames ((Sorting.perm_sort _ keys).trans h)
  exact fun a b _ _ => String.le_antisymm

/-- the names are in ascending order, each of them once, and they are those that the lookup finds; sorting the keys of
the lookup in any order gives them -/
structure Lists {α : Type} (names : List String) (find : String → Option α) : Prop where
  ascending : names.Pairwise (· < ·)
  mem_iff : ∀ name, name ∈ names ↔ ∃ x, find name = some x
  sorted : ∀ keys : List String, keys.Nodup → (∀ name, name ∈ keys ↔ ∃ x, find name = some x) → sortedNames keys = names

theorem lists_sortedNames {α : Type} (t : Table α) : Lists (sortedNames t.names) t.get? := by
  rw [sortedNames_eq (List.Perm.refl t.names)]
  refine ⟨t.names_ascending, fun name => Table.mem_names_iff, fun keys hnodup hkeys => sortedNames_eq ?_⟩
  refine (List.perm_ext_iff_of_nodup hnodup t.names_nodup).2 fun name => ?_
  rw [hkeys, Table.mem_names_iff]

end Library

namespace Library

variable {lib : Library} {d e : Entry} {es : List Entry} {slot : Slot}

/-! ## Slots -/

/-- what the library holds in the slot, as the entry that would put it there -/
def held? (lib : Library) : Slot → Option Entry
  | .operation name => (lib.operation? name).map .operation
  | .function name => (lib.function? name).map .function
  | .constant name => (lib.constant? name).map (.constant name)

theorem held?_operation_iff {name : String} {p : Operation} :
    lib.held? (.operation name) = some (.operation p) ↔ lib.operation? name = some p := by
  simp [held?]

theorem held?_function_iff {name : String} {p : Operation} :
    lib.held? (.function name) = some (.function p) ↔ lib.function? name = some p := by
  simp [held?]

theorem held?_constant_iff {name : String} {z : Complex} :
    lib.held? (.constant name) = some (.constant name z) ↔ lib.constant? name = some z := by
  simp [held?]

/-- **One registration** takes its own slot and leaves all others alone. -/
theorem held?_register (lib : Library) (e : Entry) (slot : Slot) :
    (lib.register e).held? slot = if e.slot = slot then some e else lib.held? slot := by
  cases slot with
  | operation name =>
    rw [held?, held?, operation?_register]
    cases e with
    | operation p => by_cases h : p.name = name <;> simp [Entry.operation?, Entry.slot, h]
    | function p | constant other z => simp [Entry.operation?, Entry.slot]
  | function name =>
    rw [held?, held?, function?_register]
    cases e with
    | function p => by_cases h : p.name = name <;> simp [Entry.function?, Entry.slot, h]
    | operation p | constant other z => simp [Entry.function?, Entry.slot]
  | constant name =>
    rw [held?, held?, constant?_register]
    cases e with
    | constant other z => by_cases h : other = name <;> simp [Entry.constant?, Entry.slot, h]
    | operation p | function p => simp [Entry.constant?, Entry.slot]

/-! ## Sequences of registrations -/

/-- the entry is registered, and no later one takes its slot -/
def Latest (es : List Entry) (e : Entry) : Prop :=
  ∃ before after, es = before ++ e :: after ∧ ∀ e' ∈ after, e'.slot ≠ e.slot

/-- no entry takes the slot -/
def Untouched (es : List Entry) (slot : Slot) : Prop := ∀ e ∈ es, e.slot ≠ slot

theorem Latest.mem (h : Latest es e) : e ∈ es := by
  obtain ⟨before, after, rfl, -⟩ := h
  exact List.mem_append_right before List.mem_cons_self

theorem not_latest_nil : ¬Latest [] e := fun h => absurd h.mem List.not_mem_nil

theorem latest_concat_iff : Latest (es ++ [d]) e ↔ e = d ∨ Latest es e ∧ d.slot ≠ e.slot := by
  constructor
  · intro ⟨before, after, h, hafter⟩
    rcases List.eq_nil_or_concat after with rfl | ⟨after, last, rfl⟩
    · exact .inl (List.singleton_inj.1 (List.append_inj' h rfl).2).symm
    · rw [List.concat_eq_append, ← List.cons_append, ← List.append_assoc] at h
      obtain ⟨rfl, hlast⟩ := List.append_inj' h rfl
      obtain rfl := List.singleton_inj.1 hlast
      simp only [List.concat_eq_append, List.forall_mem_append, List.forall_mem_singleton] at hafter
      exact .inr ⟨⟨before, after, rfl, hafter.1⟩, hafter.2⟩
  · rintro (rfl | ⟨⟨before, after, rfl, hafter⟩, hd⟩)
    · exact ⟨es, [], rfl, List.forall_mem_nil _⟩
    · refine ⟨before, after ++ [d], by simp, ?_⟩
      rw [List.forall_mem_append, List.forall_mem_singleton]
      exact ⟨hafter, hd⟩

theorem untouched_concat_iff : Untouched (es ++ [d]) slot ↔ Untouched es slot ∧ d.slot ≠ slot := by
  rw [Untouched, List.forall_mem_append, List.forall_mem_singleton]
  rfl

theorem registerAll_concat (lib : Library) (es : List Entry) (d : Entry) :
    lib.registerAll (es ++ [d]) = (lib.registerAll es).register d := by
  rw [registerAll, List.foldl_append]
  rfl

/-- **A whole sequence** of registrations leaves in a slot the latest entry that took it, or what was there before. -/
theorem held?_registerAll : (lib.registerAll es).held? slot = some e ↔
    Latest es e ∧ e.slot = slot ∨ Untouched es slot ∧ lib.held? slot = some e := by
  induction es using List.reverseRecOn with
  | nil => simp [registerAll, not_latest_nil, Untouched]
  | append_singleton es d ih =>
    rw [registerAll_concat, held?_register, latest_concat_iff, untouched_concat_iff]
    by_cases hd : d.slot = slot
    · rw [if_pos hd, Option.some.injEq]
      constructor
      · rintro rfl
        exact .inl ⟨.inl rfl, hd⟩
      · rintro (⟨rfl | ⟨-, hne⟩, he⟩ | ⟨⟨-, hne⟩, -⟩)
        · rfl
        · exact absurd (hd.trans he.symm) hne
        · exact absurd hd hne
    · rw [if_neg hd, ih]
      constructor
      · rintro (⟨h, rfl⟩ | ⟨hes, h⟩)
        · exact .inl ⟨.inr ⟨h, hd⟩, rfl⟩
        · exact .inr ⟨⟨hes, hd⟩, h⟩
      · rintro (⟨rfl | ⟨h, -⟩, he⟩ | ⟨⟨hes, -⟩, h⟩)
        · exact absurd he hd
        · exact .inl ⟨h, he⟩
        · exact .inr ⟨hes, h⟩

/-! ## Libraries filled by registrations -/

/-- everything that the library holds was registered -/
def Filled (lib : Library) : Prop := ∃ es, lib = empty.registerAll es

theorem filled_empty : empty.Filled := ⟨[], rfl⟩

theorem Filled.registerAll (h : lib.Filled) (es : List Entry) : (lib.registerAll es).Filled := by
  obtain ⟨before, rfl⟩ := h
  exact ⟨before ++ es, by rw [Library.registerAll, Library.registerAll, Library.registerAll, List.foldl_append]⟩

theorem filled_core : core.Filled := by
  refine ⟨arithmeticEntries.map .operation ++ constantEntries.map fun c => .constant c.1 c.2, ?_⟩
  rw [Library.registerAll, List.foldl_append, List.foldl_map, List.foldl_map]
  rfl

/-- the basic library is filled by registrations -/
theorem filled_basic : basic.Filled := filled_core.registerAll [.operation absolute]

/-- the extended library is filled by registrations, whatever `random` yields -/
theorem filled_extended (entropy : UInt64) : (extended entropy).Filled := by
  rw [extended_eq_registerAll]
  exact filled_core.registerAll _

/-- **Every entry is in its own slot,** which for operations and functions means under its own name. -/
theorem Filled.slot_eq (h : lib.Filled) (he : lib.held? slot = some e) : e.slot = slot := by
  obtain ⟨es, rfl⟩ := h
  rcases held?_registerAll.1 he with ⟨-, hslot⟩ | ⟨-, hempty⟩
  · exact hslot
  · cases slot <;> cases hempty

theorem Filled.operation_name (h : lib.Filled) {name : String} {p : Operation} (hp : lib.operation? name = some p) :
    p.name = name := Slot.operation.inj (h.slot_eq (held?_operation_iff.2 hp))

theorem Filled.function_name (h : lib.Filled) {name : String} {p : Operation} (hp : lib.function? name = some p) :
    p.name = name := Slot.function.inj (h.slot_eq (held?_function_iff.2 hp))

/-! ## The store -/

/-- the library is what registrations leave of a base: each lookup finds what was registered last under the name in
its table, or else what the base holds there, and the listings go by the lookups -/
structure Stores (base : Library) (es : List Entry) (lib : Library) : Prop where
  operation : ∀ name p, lib.operation? name = some p ↔
    Latest es (.operation p) ∧ p.name = name ∨ Untouched es (.operation name) ∧ base.operation? name = some p
  function : ∀ name p, lib.function? name = some p ↔
    Latest es (.function p) ∧ p.name = name ∨ Untouched es (.function name) ∧ base.function? name = some p
  constant : ∀ name z, lib.constant? name = some z ↔
    Latest es (.constant name z) ∨ Untouched es (.constant name) ∧ base.constant? name = some z
  /-- operations are stored under their own names -/
  operation_name : ∀ name p, lib.operation? name = some p → p.name = name
  function_name : ∀ name p, lib.function? name = some p → p.name = name
  /-- another registration leaves all slots but its own alone -/
  apart : ∀ e slot, e.slot ≠ slot → (lib.register e).held? slot = lib.held? slot
  /-- operators are found among the operations, and among the functions if there is no such operation -/
  resolve : ∀ name p, lib.resolve? name = some p ↔
    lib.operation? name = some p ∨ lib.operation? name = none ∧ lib.function? name = some p
  isFunction : ∀ name, lib.isFunction name = true ↔ ∃ p, lib.function? name = some p
  isConstant : ∀ name, lib.isConstant name = true ↔ ∃ z, lib.constant? name = some z
  operationNames : Lists lib.operationNames lib.operation?
  functionNames : Lists lib.functionNames lib.function?
  constantNames : Lists lib.constantNames lib.constant?
  /-- the words are the functions and then the constants whose names have more than one byte -/
  words : ∃ fs cs, lib.words = fs ++ cs ∧ fs.Nodup ∧ cs.Nodup ∧
    (∀ name, name ∈ fs ↔ 1 < name.utf8ByteSize ∧ ∃ p, lib.function? name = some p) ∧
    ∀ name, name ∈ cs ↔ 1 < name.utf8ByteSize ∧ ∃ z, lib.constant? name = some z

theorem mem_filter_isWord {α : Type} (t : Table α) (name : String) :
    name ∈ t.names.filter isWord ↔ 1 < name.utf8ByteSize ∧ ∃ x, t.get? name = some x := by
  rw [List.mem_filter, Table.mem_names_iff, and_comm, isWord, decide_eq_true_iff]

/-- the words are listed table by table -/
theorem words_eq (lib : Library) : ∃ fs cs, lib.words = fs ++ cs ∧ fs.Nodup ∧ cs.Nodup ∧
    (∀ name, name ∈ fs ↔ 1 < name.utf8ByteSize ∧ ∃ p, lib.function? name = some p) ∧
    ∀ name, name ∈ cs ↔ 1 < name.utf8ByteSize ∧ ∃ z, lib.constant? name = some z := by
  refine ⟨lib.functions.names.filter isWord, lib.constants.names.filter isWord, List.filter_append .., ?_, ?_, ?_, ?_⟩
  · exact lib.functions.names_nodup.filter _
  · exact lib.constants.names_nodup.filter _
  · exact mem_filter_isWord lib.functions
  · exact mem_filter_isWord lib.constants

end Library

/-- **The last entry wins.** Take a library that was filled by registrations, such as the empty one and the two that
come ready made, and register any entries in it: every lookup finds the entry of the name that was registered last in
its table, or else that of the library before, under its own name, and names are listed as they are found. -/
theorem registerAll_stores :
    (Library.empty.Filled ∧ Library.basic.Filled ∧ ∀ entropy, (Library.extended entropy).Filled) ∧
      ∀ (base : Library) (es : List Library.Entry), base.Filled → Library.Stores base es (base.registerAll es) := by
  refine ⟨⟨Library.filled_empty, Library.filled_basic, Library.filled_extended⟩, fun base es hbase => ?_⟩
  have hfilled := hbase.registerAll es
  constructor
  case operation =>
    intro name p
    rw [← Library.held?_operation_iff, Library.held?_registerAll, Library.held?_operation_iff]
    simp [Library.Entry.slot]
  case function =>
    intro name p
    rw [← Library.held?_function_iff, Library.held?_registerAll, Library.held?_function_iff]
    simp [Library.Entry.slot]
  case constant =>
    intro name z
    rw [← Library.held?_constant_iff, Library.held?_registerAll, Library.held?_constant_iff]
    simp [Library.Entry.slot]
  case operation_name => exact fun _ _ => hfilled.operation_name
  case function_name => exact fun _ _ => hfilled.function_name
  case apart =>
    intro e slot h
    rw [Library.held?_register, if_neg h]
  case resolve => exact fun _ _ => Library.resolve?_eq_some_iff
  case isFunction => exact fun _ => Table.contains_iff
  case isConstant => exact fun _ => Table.contains_iff
  case operationNames => exact Library.lists_sortedNames _
  case functionNames => exact Library.lists_sortedNames _
  case constantNames => exact Library.lists_sortedNames _
  case words => exact Library.words_eq _

/-- `sin` as a function twice and as a constant, and an operation of the name of the function `abs` -/
def shadowingEntries : List Library.Entry :=
  [.function (.unary "sin" fun z => z), .constant "sin" .unit, .function (.unary "sin" fun z => -z),
    .operation (.unary "abs" fun z => z)]

/-- the later `sin` counts, and the new operation `abs` goes in front of the function, which stays -/
theorem registerAll_stores_shadowing :
    (Library.extended 0).Filled ∧
      Library.Stores (.extended 0) shadowingEntries ((Library.extended 0).registerAll shadowingEntries) ∧
      ((Library.extended 0).registerAll shadowingEntries).function? "sin" = some (.unary "sin" fun z => -z) ∧
      ((Library.extended 0).registerAll shadowingEntries).constant? "sin" = some .unit ∧
      ((Library.extended 0).registerAll shadowingEntries).function? "abs" = some absolute ∧
      ((Library.extended 0).registerAll shadowingEntries).resolve? "abs" = some (.unary "abs" fun z => z) := by
  have hfilled := Library.filled_extended 0
  have hstores := registerAll_stores.2 (.extended 0) shadowingEntries hfilled
  refine ⟨hfilled, hstores, ?_, ?_, ?_, ?_⟩
  · exact (hstores.function _ _).2 (.inl ⟨⟨[_, _], [_], rfl, by simp [Library.Entry.slot]⟩, rfl⟩)
  · exact (hstores.constant _ _).2 (.inl ⟨[_], [_, _], rfl, by simp [Library.Entry.slot]⟩)
  · refine (hstores.function _ _).2 (.inr ⟨?_, Library.function?_extended_absolute 0⟩)
    simp [Library.Untouched, shadowingEntries, Library.Entry.slot, Operation.unary]
  · have hoperation := (hstores.operation "abs" (.unary "abs" fun z => z)).2
      (.inl ⟨⟨[_, _, _], [], rfl, List.forall_mem_nil _⟩, rfl⟩)
    exact (hstores.resolve _ _).2 (.inl hoperation)

end ComplexFormula

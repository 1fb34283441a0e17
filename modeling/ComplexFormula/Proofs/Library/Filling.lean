/-
How a library was filled leaves no trace. Libraries that answer every lookup alike hold the same tables, since a table
keeps its names in ascending order; so they scan, read and build alike. That holds too where the words are tried in
sorted order and the names come in any order, with names of a function and a constant at once and names of a keyword
among them.

- `Table.ext_get?`: a table is what its lookups say.
- `Library.AnswersAlike`: the two libraries answer every lookup alike.
- `Library.SameLast`, `answersAlike_registerAll`: registrations that agree on what comes last for each name.
- `SameLast.of_perm`, `SameLast.cons_of_overwritten`: entries of different names or tables in any order, and an entry
  that is replaced later.
- `build_answersAlike`: **scanning and building** under libraries that answer alike.
-/
import ComplexFormula.Formula
import ComplexFormula.Proofs.Library.Registration
import ComplexFormula.Proofs.Scanning.WordOrder
import Mathlib.Data.List.Sort

namespace ComplexFormula

/-! ## Tables -/

namespace Table

variable {α : Type}

/-- in ascending entries the lookup of a name finds its only entry -/
theorem lookup_eq_some_iff {l : List (String × α)} (h : l.Pairwise fun a b => a.1 < b.1) {name : String} {x : α} :
    lookup name l = some x ↔ (name, x) ∈ l := by
  induction l with
  | nil => simp [lookup]
  | cons e rest ih =>
    obtain ⟨he, hrest⟩ := List.pairwise_cons.1 h
    rw [lookup_cons, List.mem_cons, ← ih hrest]
    by_cases hname : e.1 = name
    · subst hname
      have hnone : lookup e.1 rest ≠ some x := by
        intro hfound
        exact absurd (he _ ((ih hrest).1 hfound)) (String.lt_irrefl _)
      simp [hnone, Prod.ext_iff, eq_comm]
    · have hne : (name, x) ≠ e := fun heq => hname (by rw [← heq])
      simp [hname, hne]

/-- **A table is what its lookups say.** -/
theorem ext_get? {t t' : Table α} (h : ∀ name, t.get? name = t'.get? name) : t = t' := by
  have : Std.Irrefl fun a b : String × α => a.1 < b.1 := ⟨fun _ => String.lt_irrefl _⟩
  have : Std.Antisymm fun a b : String × α => a.1 < b.1 :=
    ⟨fun _ _ hab hba => absurd (String.lt_trans hab hba) (String.lt_irrefl _)⟩
  have hmem : ∀ e, e ∈ t.entries ↔ e ∈ t'.entries := by
    intro e
    rw [← lookup_eq_some_iff t.ascending, ← lookup_eq_some_iff t'.ascending]
    exact iff_of_eq (congrArg (· = some e.2) (h e.1))
  have hentries : t.entries = t'.entries := t.ascending.eq_of_mem_iff t'.ascending hmem
  cases t
  cases t'
  cases hentries
  rfl

end Table

/-! ## Libraries that answer alike -/

namespace Library

/-- every lookup has the same answer in both libraries -/
structure AnswersAlike (lib lib' : Library) : Prop where
  operation : ∀ name, lib.operation? name = lib'.operation? name
  function : ∀ name, lib.function? name = lib'.function? name
  constant : ∀ name, lib.constant? name = lib'.constant? name

theorem AnswersAlike.symm {lib lib' : Library} (h : lib.AnswersAlike lib') : lib'.AnswersAlike lib :=
  ⟨fun name => (h.operation name).symm, fun name => (h.function name).symm, fun name => (h.constant name).symm⟩

/-- libraries that answer alike are the same -/
theorem AnswersAlike.eq {lib lib' : Library} (h : lib.AnswersAlike lib') : lib = lib' := by
  cases lib
  cases lib'
  rw [mk.injEq]
  exact ⟨Table.ext_get? h.operation, Table.ext_get? h.function, Table.ext_get? h.constant⟩

/-! ## Registrations -/

/-- what a registration replaces: the entry of one name in one table -/
inductive Slot where
  | operation (name : String)
  | function (name : String)
  | constant (name : String)
deriving DecidableEq

/-- the slot that the entry takes -/
def Entry.slot : Entry → Slot
  | .operation p => .operation p.name
  | .function p => .function p.name
  | .constant name _ => .constant name

namespace Entry

variable {e : Entry} {name : String}

theorem isSome_operation?_iff : (e.operation? name).isSome = true ↔ e.slot = .operation name := by
  cases e <;> simp [operation?, slot]

theorem isSome_function?_iff : (e.function? name).isSome = true ↔ e.slot = .function name := by
  cases e <;> simp [function?, slot]

theorem isSome_constant?_iff : (e.constant? name).isSome = true ↔ e.slot = .constant name := by
  cases e <;> simp [constant?, slot]

end Entry

/-- for every slot, both have the same entry last -/
structure SameLast (es es' : List Entry) : Prop where
  operation : ∀ name, es.reverse.findSome? (Entry.operation? name) = es'.reverse.findSome? (Entry.operation? name)
  function : ∀ name, es.reverse.findSome? (Entry.function? name) = es'.reverse.findSome? (Entry.function? name)
  constant : ∀ name, es.reverse.findSome? (Entry.constant? name) = es'.reverse.findSome? (Entry.constant? name)

/-- registrations that agree on what comes last give libraries that answer alike -/
theorem answersAlike_registerAll {es es' : List Entry} (h : SameLast es es') (lib : Library) :
    (lib.registerAll es).AnswersAlike (lib.registerAll es') where
  operation name := by rw [operation?_registerAll, operation?_registerAll, h.operation]
  function name := by rw [function?_registerAll, function?_registerAll, h.function]
  constant name := by rw [constant?_registerAll, constant?_registerAll, h.constant]

section

variable {α : Type} {es es' : List Entry} {answer : Entry → Option α} {slot : Slot}

/-- entries of different slots can be searched in any order -/
theorem findSome?_perm (hanswer : ∀ e, (answer e).isSome = true ↔ e.slot = slot) (h : es.Perm es')
    (hslots : (es.map Entry.slot).Nodup) : es.findSome? answer = es'.findSome? answer := by
  cases hfound : es.findSome? answer with
  | none =>
    rw [List.findSome?_eq_none_iff] at hfound
    exact (List.findSome?_eq_none_iff.2 fun e he => hfound e (h.mem_iff.2 he)).symm
  | some x =>
    obtain ⟨e, he, hx⟩ := List.exists_of_findSome?_eq_some hfound
    cases hfound' : es'.findSome? answer with
    | none => simp [List.findSome?_eq_none_iff.1 hfound' e (h.mem_iff.1 he)] at hx
    | some y =>
      obtain ⟨e', he', hy⟩ := List.exists_of_findSome?_eq_some hfound'
      have hslot : e.slot = slot := (hanswer e).1 (by rw [hx]; rfl)
      have hslot' : e'.slot = slot := (hanswer e').1 (by rw [hy]; rfl)
      obtain rfl := List.inj_on_of_nodup_map hslots he (h.mem_iff.2 he') (hslot.trans hslot'.symm)
      exact hx.symm.trans hy

/-- an entry of a slot that is taken again later is never found -/
theorem findSome?_cons_of_overwritten {e : Entry} (hanswer : ∀ e, (answer e).isSome = true ↔ e.slot = slot)
    (h : e.slot ∈ es.map Entry.slot) : (e :: es).reverse.findSome? answer = es.reverse.findSome? answer := by
  rw [List.reverse_cons, List.findSome?_append]
  cases hfound : es.reverse.findSome? answer with
  | some x => rfl
  | none =>
    obtain ⟨e', he', hslot⟩ := List.mem_map.1 h
    have hnone' := List.findSome?_eq_none_iff.1 hfound e' (List.mem_reverse.2 he')
    have hnone : answer e = none := by
      rw [← Option.not_isSome_iff_eq_none, hanswer, ← hslot, ← hanswer, hnone']
      simp
    simp [hnone]

end

/-- registrations for different names or tables can come in any order -/
theorem SameLast.of_perm {es es' : List Entry} (h : es.Perm es') (hslots : (es.map Entry.slot).Nodup) :
    SameLast es es' := by
  have hreverse : es.reverse.Perm es'.reverse := (es.reverse_perm.trans h).trans es'.reverse_perm.symm
  have hslots' : (es.reverse.map Entry.slot).Nodup := by rwa [List.map_reverse, List.nodup_reverse]
  exact ⟨fun _ => findSome?_perm (fun _ => Entry.isSome_operation?_iff) hreverse hslots',
    fun _ => findSome?_perm (fun _ => Entry.isSome_function?_iff) hreverse hslots',
    fun _ => findSome?_perm (fun _ => Entry.isSome_constant?_iff) hreverse hslots'⟩

/-- a registration that a later one replaces can be left out -/
theorem SameLast.cons_of_overwritten {e : Entry} {es : List Entry} (h : e.slot ∈ es.map Entry.slot) :
    SameLast (e :: es) es :=
  ⟨fun _ => findSome?_cons_of_overwritten (fun _ => Entry.isSome_operation?_iff) h,
    fun _ => findSome?_cons_of_overwritten (fun _ => Entry.isSome_function?_iff) h,
    fun _ => findSome?_cons_of_overwritten (fun _ => Entry.isSome_constant?_iff) h⟩

theorem SameLast.trans {es es' es'' : List Entry} (h : SameLast es es') (h' : SameLast es' es'') : SameLast es es'' :=
  ⟨fun name => (h.operation name).trans (h'.operation name), fun name => (h.function name).trans (h'.function name),
    fun name => (h.constant name).trans (h'.constant name)⟩

end Library

/-! ## Scanning and building -/

/-- the recipe with another library -/
def Recipe.under (r : Recipe) (lib : Library) : Recipe := { r with library := lib }

/-- **How a library was filled is unobservable.** Under libraries that answer alike, scans give the same tokens or the
same fault, also where the words are sorted from names in any order, and the hooks report the same; definitions,
formulas, their values and the first faults are the same under either policy. Registrations that agree on what comes
last for each name and table fill such libraries. -/
theorem build_answersAlike :
    (∀ lib lib' : Library, lib.AnswersAlike lib' →
      (∀ names names', lib.HasNames names → lib'.HasNames names' →
        (∀ text, ((lib.wordList names).find? fun w => w.letters.isPrefixOf text) =
          (lib'.wordList names').find? fun w => w.letters.isPrefixOf text) ∧
        ∀ source, scanFrom (lib.wordList names) 0 [] source.toList = scan lib source ∧
          scanFrom (lib'.wordList names') 0 [] source.toList = scan lib source) ∧
      (∀ hooks source, scanWith lib hooks source = scanWith lib' hooks source ∧
        hookEvents lib hooks source = hookEvents lib' hooks source) ∧
      ∀ r : Recipe, (r.under lib).declaration = (r.under lib').declaration ∧
        (r.under lib).build = (r.under lib').build ∧ (r.under lib).journal = (r.under lib').journal ∧
        ∀ f f', (r.under lib).build = .ok f → (r.under lib').build = .ok f' → ∀ args, f.call args = f'.call args) ∧
    ∀ (lib : Library) (es es' : List Library.Entry), Library.SameLast es es' →
      (lib.registerAll es).AnswersAlike (lib.registerAll es') := by
  refine ⟨fun lib lib' h => ?_, fun lib es es' h => Library.answersAlike_registerAll h lib⟩
  obtain rfl := h.eq
  refine ⟨?_, fun hooks source => ⟨rfl, rfl⟩, fun r => ⟨rfl, rfl, rfl, ?_⟩⟩
  · intro names names' hnames hnames'
    rw [wordList_eq_lexicon hnames, wordList_eq_lexicon hnames']
    exact ⟨fun text => rfl, fun source => ⟨rfl, rfl⟩⟩
  · intro f f' hf hf' args
    rw [Except.ok.inj (hf.symm.trans hf')]

/-- a name that is a function and a constant, and a function under the name of a keyword -/
def clashingEntries : List Library.Entry :=
  [.function (.unary "pi" fun z => z), .constant "pi" .unit, .function (.unary "if" fun z => -z)]

/-- the same in another order, behind a function that is replaced -/
def overwrittenEntries : List Library.Entry :=
  .function (.unary "if" fun z => z) ::
    [.function (.unary "if" fun z => -z), .function (.unary "pi" fun z => z), .constant "pi" .unit]

theorem sameLast_overwritten : Library.SameLast overwrittenEntries clashingEntries := by
  refine (Library.SameLast.cons_of_overwritten (by decide)).trans (Library.SameLast.of_perm ?_ (by decide))
  exact @List.perm_append_comm _ [_] [_, _]

/-- a formula that calls both functions -/
def clashingRecipe : Recipe :=
  { source := "f(x) = if(pi(x))", library := Library.empty.registerAll clashingEntries }

theorem build_answersAlike_clashing :
    (∃ f, clashingRecipe.build = .ok f ∧ f.arity = 1 ∧
      (clashingRecipe.under (Library.empty.registerAll overwrittenEntries)).build = .ok f) ∧
    scanFrom ((Library.empty.registerAll overwrittenEntries).wordList ["pi", "if", "pi"]) 0 []
      clashingRecipe.source.toList = scan clashingRecipe.library clashingRecipe.source := by
  obtain ⟨halike, hfilled⟩ := build_answersAlike
  obtain ⟨hscan, -, hbuild⟩ := halike clashingRecipe.library _ (hfilled .empty _ _ sameLast_overwritten).symm
  refine ⟨?_, ?_⟩
  · have hf : clashingRecipe.build.map Formula.arity = .ok 1 := by decide +kernel
    obtain ⟨f, hf, harity⟩ := map_eq_ok_iff.1 hf
    obtain ⟨-, hsame, -⟩ := hbuild clashingRecipe
    exact ⟨f, hf, harity, hsame.symm.trans hf⟩
  · have hnames : clashingRecipe.library.HasNames ["if", "pi", "pi"] := List.Perm.refl _
    have hnames' : (Library.empty.registerAll overwrittenEntries).HasNames ["pi", "if", "pi"] :=
      List.Perm.swap "if" "pi" ["pi"]
    exact ((hscan _ _ hnames hnames').2 clashingRecipe.source).2

end ComplexFormula

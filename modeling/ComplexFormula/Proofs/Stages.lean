/-
Which stage a build fails in. The stages come one after the other, and the first fault ends the build: a scan fails
with what stands in the source, a definition at one of its tokens, a lookup with the name that it looked for. Nothing
that only a call can raise comes out of a build.

- `Fault.OfLookup`, `ofDeclaration_endsIn`: faults of names and operand counts.
- `declaration_endsIn`: faults of grammar at the tokens of a scan; no number that was scanned is refused later.
- `Fault.pos?`: the position of a fault.
- `build_error`: **the first failing stage** and where its fault points.
-/
import ComplexFormula.Formula
import ComplexFormula.Proofs.Definition.Faults
import ComplexFormula.Proofs.Scanning.Faults
import ComplexFormula.Proofs.Scanning.Lossless
import ComplexFormula.Proofs.Scanning.Names
import ComplexFormula.Proofs.Tree

namespace ComplexFormula

/-! ## Lookups -/

/-- a name without an entry, or an entry that does not accept the number of operands -/
def Fault.OfLookup (lib : Library) : Fault → Prop
  | .unknownIdentifier name => lib.constant? name = none
  | .unknownOperation name => lib.function? name = none
  | .arity name expected found => ∃ op, (lib.resolve? name = some op ∨ lib.function? name = some op) ∧
      op.arity = expected ∧ expected.accepts found = false
  | _ => False

section

variable {lib : Library}

/-- the run ends in a fault of a lookup, if in any -/
abbrev EndsInLookup {α : Type} (lib : Library) (x : Except Fault α) : Prop := EndsIn (Fault.OfLookup lib) Whatever x

theorem application_endsIn {op? : Option Operation} {name : String} (argc : Nat)
    (hop : op? = lib.resolve? name ∨ op? = lib.function? name) : EndsInLookup lib (application op? name argc) := by
  cases op? with
  | none =>
    refine .error ?_
    rcases hop with hop | hop
    · exact (Option.or_eq_none_iff.1 hop.symm).2
    · exact hop.symm
  | some op =>
    rw [application]
    split
    case isTrue => exact .ok trivial
    case isFalse haccepts => exact .error ⟨op, hop.imp Eq.symm Eq.symm, rfl, by simpa using haccepts⟩

theorem codeAll_endsIn {as : List Expr} (has : ∀ a ∈ as, EndsInLookup lib (a.code lib)) :
    EndsInLookup lib (Expr.codeAll lib as) := by
  induction as with
  | nil => exact .ok trivial
  | cons a as ih =>
    obtain ⟨ha, has⟩ := List.forall_mem_cons.1 has
    exact ha.bind fun _ _ => (ih has).bind fun _ _ => .ok trivial

theorem code_endsIn (e : Expr) : EndsInLookup lib (e.code lib) := by
  induction e using Expr.induct with
  | number x => exact .ok trivial
  | param name index => exact .ok trivial
  | constant name =>
    rw [Expr.code]
    cases hz : lib.constant? name with
    | none => exact .error hz
    | some z => exact .ok trivial
  | unary op a ih => exact ih.bind fun _ _ => (application_endsIn 1 (.inl rfl)).bind fun _ _ => .ok trivial
  | binary op a b iha ihb =>
    exact iha.bind fun _ _ => ihb.bind fun _ _ => (application_endsIn 2 (.inl rfl)).bind fun _ _ => .ok trivial
  | call name as ih =>
    exact (codeAll_endsIn ih).bind fun _ _ => (application_endsIn as.length (.inr rfl)).bind fun _ _ => .ok trivial

theorem ofExpr_endsIn (e : Expr) : EndsInLookup lib (Program.ofExpr lib e) :=
  (code_endsIn e).bind fun _ _ => .ok trivial

theorem ofComparison_endsIn (c : Comparison) : EndsInLookup lib (Check.ofComparison lib c) :=
  (ofExpr_endsIn c.left).bind fun _ _ => (ofExpr_endsIn c.right).bind fun _ _ => .ok trivial

theorem ofClause_endsIn (c : Clause) : EndsInLookup lib (Branch.ofClause lib c) :=
  (EndsIn.mapM fun k (_ : k ∈ c.guard) => ofComparison_endsIn k).bind fun _ _ =>
    (ofExpr_endsIn c.value).bind fun _ _ => .ok trivial

/-- **Looking names up** fails with the name that was looked for. -/
theorem ofDeclaration_endsIn (d : Declaration) : EndsInLookup lib (Procedure.ofDeclaration lib d) := by
  have hbody : EndsInLookup lib (Body.ofDeclaration lib d) :=
    (EndsIn.mapM fun c (_ : c ∈ d.clauses) => ofClause_endsIn c).bind fun _ _ =>
      (ofExpr_endsIn d.body).bind fun _ _ => .ok trivial
  exact hbody.bind fun _ _ => .ok trivial

end

/-! ## Definitions -/

/-- a fault of grammar at the beginning of the source, or where one of the tokens begins or ends -/
def Fault.OfGrammar (ts : List Token) : Fault → Prop
  | .grammar _ pos => Place ts pos
  | _ => False

variable {lib : Library} {source : String} {ts : List Token}

/-- the hook of the imaginary unit moves no token -/
theorem place_map_patch {pos : Nat} (h : Place (ts.map Hook.imaginaryUnit.patch) pos) : Place ts pos := by
  rcases h with rfl | ⟨t, ht, hpos⟩
  · exact .inl rfl
  · obtain ⟨u, hu, rfl⟩ := List.mem_map.1 ht
    rw [Hook.patch_imaginaryUnit] at hpos
    exact .inr ⟨u, hu, hpos⟩

/-- nor does it make a number of anything else -/
theorem readable_map_patch (h : ReadableNumbers ts) : ReadableNumbers (ts.map Hook.imaginaryUnit.patch) := by
  intro t ht hkind
  obtain ⟨u, hu, rfl⟩ := List.mem_map.1 ht
  rw [Hook.patch_imaginaryUnit] at hkind ⊢
  refine h u hu ?_
  by_cases hunit : u.is .identifier "i" = true
  · simp [Token.withKind, hunit] at hkind
  · simpa [Token.withKind, hunit] using hkind

/-- **A definition** fails at a place of the tokens that were scanned; its numbers are readable by then. -/
theorem declaration_endsIn (h : ReadableNumbers ts) :
    EndsIn (Fault.OfGrammar ts) Whatever (Declaration.ofTokens (ts.map Hook.imaginaryUnit.patch)) := by
  refine (Declaration.ofTokens_endsIn _).imp ?_ fun _ h => h
  intro fault hfault
  cases fault with
  | grammar cause pos => exact place_map_patch hfault
  | invalidNumber text pos =>
    obtain ⟨t, ht, hkind, rfl, -, hread⟩ := hfault
    have hsome := readable_map_patch h t ht hkind
    rw [hread] at hsome
    cases hsome
  | unexpectedCharacter | unknownIdentifier | unknownOperation | arity | argumentCount | domain => exact hfault

/-- a place of the tokens is a boundary of characters -/
theorem Place.isValid (h : Lossless source ts) {pos : Nat} (hpos : Place ts pos) :
    String.Pos.Raw.IsValid source ⟨pos⟩ := by
  rcases hpos with rfl | ⟨t, ht, rfl | rfl⟩
  · exact String.Pos.Raw.isValid_zero
  · exact (h.boundary t ht).1
  · exact (h.boundary t ht).2

/-! ## Builds -/

/-- the position that the fault reports -/
def Fault.pos? : Fault → Option Nat
  | .unexpectedCharacter _ pos | .invalidNumber _ pos | .grammar _ pos => some pos
  | _ => none

theorem Fault.OfScan.isValid {fault : Fault} (h : fault.OfScan source) {pos : Nat} (hpos : pos ∈ fault.pos?) :
    String.Pos.Raw.IsValid source ⟨pos⟩ := by
  cases fault with
  | unexpectedCharacter char pos =>
    obtain rfl := Option.some.inj hpos
    exact h.2.isValid
  | invalidNumber text pos =>
    obtain rfl := Option.some.inj hpos
    exact h.2.2.isValid
  | grammar | unknownIdentifier | unknownOperation | arity | argumentCount | domain => exact h.elim

theorem Fault.OfGrammar.isValid (hts : Lossless source ts) {fault : Fault} (h : fault.OfGrammar ts) {pos : Nat}
    (hpos : pos ∈ fault.pos?) : String.Pos.Raw.IsValid source ⟨pos⟩ := by
  cases fault with
  | grammar cause pos =>
    obtain rfl := Option.some.inj hpos
    exact Place.isValid hts h
  | unexpectedCharacter | invalidNumber | unknownIdentifier | unknownOperation | arity | argumentCount | domain =>
    exact h.elim

theorem Fault.OfLookup.pos?_eq_none {fault : Fault} (h : fault.OfLookup lib) : fault.pos? = none := by
  cases fault with
  | unknownIdentifier | unknownOperation | arity => rfl
  | unexpectedCharacter | invalidNumber | grammar | argumentCount | domain => exact h.elim

/-- a build that fails ends in that fault at one of its stages, all stages before it having succeeded -/
inductive Recipe.FailsWith (r : Recipe) (fault : Fault) : Prop where
  | scanning (hscan : scan r.library r.source = .error fault) (h : fault.OfScan r.source)
  | reading {tokens} (hscan : scan r.library r.source = .ok tokens) (hread : r.declaration = .error fault)
    (h : fault.OfGrammar tokens)
  | lookup {d} (hread : r.declaration = .ok d)
    (hlookup : Procedure.ofDeclaration r.library (r.clauses.applyTo d) = .error fault) (h : fault.OfLookup r.library)

/-- the stages of a build without further hooks, one after the other -/
theorem failsWith_of_build {r : Recipe} (hhooks : r.hooks = []) {fault : Fault} (h : r.build = .error fault) :
    r.FailsWith fault := by
  have hscanned := scan_endsIn r.library r.source
  have hpatch : Hook.patchAll r.allHooks = Hook.imaginaryUnit.patch := by
    rw [Recipe.allHooks, hhooks]
    rfl
  rcases bind_eq_error_iff.1 h with hread | ⟨d, hread, hlookup⟩
  · rcases bind_eq_error_iff.1 hread with htokens | ⟨tokens, htokens, hgrammar⟩
    · have hscan := map_eq_error_iff.1 htokens
      rw [hscan] at hscanned
      exact .scanning hscan hscanned.of_error
    · obtain ⟨ts, hscan, rfl⟩ := map_eq_ok_iff.1 htokens
      rw [hscan] at hscanned
      have hdeclaration := declaration_endsIn hscanned.of_ok
      rw [← hpatch, hgrammar] at hdeclaration
      exact .reading hscan hread hdeclaration.of_error
  · rcases bind_eq_error_iff.1 hlookup with hlookup | ⟨p, -, hp⟩
    · have hprocedure : EndsInLookup r.library _ := ofDeclaration_endsIn (r.clauses.applyTo d)
      rw [hlookup] at hprocedure
      exact .lookup hread hlookup hprocedure.of_error
    · cases hp

namespace Recipe.FailsWith

variable {r : Recipe} {fault : Fault}

/-- the position is a boundary of characters of the source -/
theorem isValid (h : r.FailsWith fault) {pos : Nat} (hpos : pos ∈ fault.pos?) :
    String.Pos.Raw.IsValid r.source ⟨pos⟩ := by
  cases h with
  | scanning _ h => exact h.isValid hpos
  | reading hscan _ h => exact h.isValid (lossless_of_scan hscan) hpos
  | lookup _ _ h =>
    rw [h.pos?_eq_none] at hpos
    cases hpos

/-- what only a call can raise is none of the faults -/
theorem not_raised (h : r.FailsWith fault) :
    (∀ expected found, fault ≠ .argumentCount expected found) ∧ ∀ cause, fault ≠ .domain cause := by
  constructor
  · rintro expected found rfl
    cases h <;> assumption
  · rintro cause rfl
    cases h <;> assumption

end Recipe.FailsWith

/-- **Faults of a build** belong to the first stage that fails, in a recipe without further hooks: what stands in the
source, a place of the tokens that were scanned, or a name that was looked up. The position that is reported is a
boundary of characters within the source. A wrong number of arguments and the refusal of an operation are none of
them. -/
theorem build_error {r : Recipe} (hhooks : r.hooks = []) {fault : Fault} (h : r.build = .error fault) :
    r.FailsWith fault ∧
      (∀ pos ∈ fault.pos?, pos ≤ r.source.utf8ByteSize ∧ String.Pos.Raw.IsValid r.source ⟨pos⟩) ∧
      (∀ expected found, fault ≠ .argumentCount expected found) ∧ ∀ cause, fault ≠ .domain cause := by
  have hfails := failsWith_of_build hhooks h
  refine ⟨hfails, ?_, hfails.not_raised⟩
  intro pos hpos
  have hvalid := hfails.isValid hpos
  exact ⟨hvalid.le_utf8ByteSize, hvalid⟩

/-- a bracket that is not closed, behind a blank of three bytes -/
def unclosedRecipe : Recipe := { source := "f(x) =\u2003(x", library := .basic, clauses := .keep }

theorem build_error_unclosed :
    unclosedRecipe.build = .error (.grammar .unclosedBracket 9) ∧
      unclosedRecipe.FailsWith (.grammar .unclosedBracket 9) ∧
      9 ≤ unclosedRecipe.source.utf8ByteSize ∧ String.Pos.Raw.IsValid unclosedRecipe.source ⟨9⟩ := by
  have hbuild : unclosedRecipe.build.map Formula.arity = .error (.grammar .unclosedBracket 9) := by decide +kernel
  have hbuild := map_eq_error_iff.1 hbuild
  obtain ⟨hfails, hpos, -⟩ := build_error rfl hbuild
  exact ⟨hbuild, hfails, hpos 9 rfl⟩

end ComplexFormula

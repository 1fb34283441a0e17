/-
Definitions under a larger library. A definition whose names have all been found keeps its procedure, program for
program, when the library is replaced by one that answers the same lookups, whatever else that one holds. What a
definition depends on are constants, functions that accept some number of operands, and operators that accept one
operand or two; the condition is exact.

- `Library.Extends`: every lookup that succeeds keeps its answer.
- `Library.Covers`: the same for the lookups that a definition can use.
- `covers_iff`: **exactness**, the libraries under which all procedures stay.
- `extended_extends_basic`: the two libraries that come ready made.
- `ofDeclaration_extends`: **conservativity** of an extension.
-/
import ComplexFormula.Proofs.Evaluation
import ComplexFormula.Proofs.Library.Registration

namespace ComplexFormula

variable {lib lib' : Library}

/-! ## Larger libraries -/

namespace Library

/-- every lookup that succeeds in the smaller library succeeds with the same answer in the larger one -/
structure Extends (larger smaller : Library) : Prop where
  constant : ∀ {name z}, smaller.constant? name = some z → larger.constant? name = some z
  function : ∀ {name op}, smaller.function? name = some op → larger.function? name = some op
  resolve : ∀ {name op}, smaller.resolve? name = some op → larger.resolve? name = some op

/-- an operator with that entry can be written: signs have one operand, the other operators two -/
def IsOperator (op : Operation) : Prop := op.arity.accepts 1 = true ∨ op.arity.accepts 2 = true

/-- every lookup of the smaller library that a definition can use has the same answer in the larger one -/
structure Covers (larger smaller : Library) : Prop where
  constant : ∀ {name z}, smaller.constant? name = some z → larger.constant? name = some z
  function : ∀ {name op argc}, smaller.function? name = some op → op.arity.accepts argc = true →
    larger.function? name = some op
  resolve : ∀ {name op}, smaller.resolve? name = some op → IsOperator op → larger.resolve? name = some op

theorem Extends.covers (h : lib'.Extends lib) : lib'.Covers lib :=
  ⟨h.constant, fun hop _ => h.function hop, fun hop _ => h.resolve hop⟩

end Library

/-! ## Code under a larger library -/

/-- an application stays where the entry that it uses does -/
theorem application_kept {op? op?' : Option Operation} {name : String} {argc : Nat}
    (h : ∀ op, op? = some op → op.arity.accepts argc = true → op?' = some op) :
    Kept (application op? name argc) (application op?' name argc) := by
  intro i hi
  obtain ⟨op, hop, haccepts, hi⟩ := application_eq_ok_iff.1 hi
  exact application_eq_ok_iff.2 ⟨op, h op hop haccepts, haccepts, hi⟩

theorem codeAll_kept {as : List Expr} (has : ∀ a ∈ as, Kept (a.code lib) (a.code lib')) :
    Kept (Expr.codeAll lib as) (Expr.codeAll lib' as) := by
  induction as with
  | nil => exact .refl _
  | cons a as ih =>
    have hfirst := has a List.mem_cons_self
    have hothers := ih fun b hb => has b (List.mem_cons_of_mem a hb)
    exact hfirst.bind fun _ => hothers.bind fun _ => .refl _

namespace Library.Covers

variable (h : lib'.Covers lib)

include h

/-- the code of an expression stays -/
theorem code (e : Expr) : Kept (e.code lib) (e.code lib') := by
  induction e using Expr.induct with
  | number x => exact .refl _
  | param name index => exact .refl _
  | constant name =>
    intro is his
    rw [Expr.code] at his ⊢
    cases hz : lib.constant? name with
    | none => simp [hz] at his
    | some z =>
      rw [h.constant hz]
      rwa [hz] at his
  | unary op a ih =>
    have hop : Kept (application (lib.resolve? op) op 1) (application (lib'.resolve? op) op 1) :=
      application_kept fun _ hop haccepts => h.resolve hop (.inl haccepts)
    exact ih.bind fun _ => hop.bind fun _ => .refl _
  | binary op a b iha ihb =>
    have hop : Kept (application (lib.resolve? op) op 2) (application (lib'.resolve? op) op 2) :=
      application_kept fun _ hop haccepts => h.resolve hop (.inr haccepts)
    exact iha.bind fun _ => ihb.bind fun _ => hop.bind fun _ => .refl _
  | call name as ih =>
    have hop : Kept (application (lib.function? name) name as.length)
        (application (lib'.function? name) name as.length) :=
      application_kept fun _ hop haccepts => h.function hop haccepts
    exact (codeAll_kept ih).bind fun _ => hop.bind fun _ => .refl _

theorem ofExpr (e : Expr) : Kept (Program.ofExpr lib e) (Program.ofExpr lib' e) :=
  (h.code e).bind fun _ => .refl _

theorem ofComparison (c : Comparison) : Kept (Check.ofComparison lib c) (Check.ofComparison lib' c) :=
  (h.ofExpr c.left).bind fun _ => (h.ofExpr c.right).bind fun _ => .refl _

theorem ofClause (c : Clause) : Kept (Branch.ofClause lib c) (Branch.ofClause lib' c) :=
  (Kept.mapM h.ofComparison c.guard).bind fun _ => (h.ofExpr c.value).bind fun _ => .refl _

/-- the procedure of a definition stays -/
theorem ofDeclaration (d : Declaration) : Kept (Procedure.ofDeclaration lib d) (Procedure.ofDeclaration lib' d) := by
  have hbody : Kept (Body.ofDeclaration lib d) (Body.ofDeclaration lib' d) :=
    (Kept.mapM h.ofClause d.clauses).bind fun _ => (h.ofExpr d.body).bind fun _ => .refl _
  exact hbody.bind fun _ => .refl _

end Library.Covers

/-! ## Exactness -/

namespace Declaration

/-- the definition without parameters and clauses that has the body -/
def ofBody (e : Expr) : Declaration := ⟨"f", [], e, []⟩

/-- the code of a body is in the procedure -/
theorem code_kept_of_ofBody {e : Expr} (h : Kept (Procedure.ofDeclaration lib (ofBody e))
    (Procedure.ofDeclaration lib' (ofBody e))) : Kept (e.code lib) (e.code lib') := by
  intro is his
  have hp : Procedure.ofDeclaration lib (ofBody e) = .ok ⟨ofBody e, ⟨[], ⟨is⟩⟩⟩ := by
    simp [Procedure.ofDeclaration, Body.ofDeclaration, Program.ofExpr, ofBody, his]
  obtain ⟨body, hbody, hp⟩ := bind_eq_ok_iff.1 (h _ hp)
  obtain ⟨branches, -, hbody⟩ := bind_eq_ok_iff.1 hbody
  obtain ⟨fallback, hfallback, hbody⟩ := bind_eq_ok_iff.1 hbody
  obtain ⟨js, hjs, hfallback⟩ := bind_eq_ok_iff.1 hfallback
  obtain rfl := Except.ok.inj hfallback
  obtain rfl := Except.ok.inj hbody
  cases Except.ok.inj hp
  exact hjs

end Declaration

/-- the entry of an application is in the code, behind that of the operands -/
theorem eq_some_of_kept {op? op?' : Option Operation} {name : String} {argc : Nat} {front : List Instr}
    (h : Kept (application op? name argc >>= fun i => pure (front ++ [i]))
      (application op?' name argc >>= fun i => pure (front ++ [i])))
    {op : Operation} (hop : op? = some op) (haccepts : op.arity.accepts argc = true) : op?' = some op := by
  have hi : application op? name argc = .ok (.apply op argc) := application_eq_ok_iff.2 ⟨op, hop, haccepts, rfl⟩
  obtain ⟨i, hi, hcode⟩ := bind_eq_ok_iff.1 (h _ (bind_eq_ok_iff.2 ⟨_, hi, rfl⟩))
  obtain ⟨op', hop', -, rfl⟩ := application_eq_ok_iff.1 hi
  have hlast := List.append_cancel_left (Except.ok.inj hcode)
  simp only [List.cons.injEq, Instr.apply.injEq, and_true] at hlast
  rwa [hlast] at hop'

theorem codeAll_replicate (lib : Library) (argc : Nat) (x : Binary64) :
    Expr.codeAll lib (List.replicate argc (.number x)) = .ok (List.replicate argc (.push (.real x))) := by
  induction argc with
  | zero => rfl
  | succ n ih =>
    rw [List.replicate_succ, Expr.codeAll, ih]
    rfl

/-- **Exactness.** All procedures stay when the library is replaced, if and only if the new library covers the old
one. -/
theorem covers_iff : lib'.Covers lib ↔
    ∀ d p, Procedure.ofDeclaration lib d = .ok p → Procedure.ofDeclaration lib' d = .ok p := by
  constructor
  · exact fun h d => h.ofDeclaration d
  -- each lookup has a definition whose body is that lookup and nothing else
  · intro h
    have hcode := fun e => Declaration.code_kept_of_ofBody (h (.ofBody e))
    refine ⟨fun {name z} hz => ?_, fun {name op argc} hop haccepts => ?_, fun {name op} hop haccepts => ?_⟩
    · have hkept := hcode (.constant name) [.push (.complex z)] (by rw [Expr.code, hz])
      rw [Expr.code] at hkept
      cases hz' : lib'.constant? name with
      | none => simp [hz'] at hkept
      | some z' =>
        rw [hz'] at hkept
        cases hkept
        rfl
    · have hkept := hcode (.call name (List.replicate argc (.number 0)))
      rw [Expr.code, Expr.code, List.length_replicate, codeAll_replicate, codeAll_replicate] at hkept
      exact eq_some_of_kept hkept hop haccepts
    · rcases haccepts with haccepts | haccepts
      · exact eq_some_of_kept (hcode (.unary name (.number 0))) hop haccepts
      · exact eq_some_of_kept (hcode (.binary name (.number 0) (.number 0))) hop haccepts

/-! ## The libraries that come ready made -/

namespace Library

theorem constants_registerOperation (lib : Library) (p : Operation) :
    (lib.registerOperation p).constants = lib.constants := rfl

theorem constants_basic : basic.constants = core.constants := constants_registerOperation core absolute

theorem function?_basic (name : String) : basic.function? name = none := rfl

theorem operation?_basic (name : String) :
    basic.operation? name = if absolute.name = name then some absolute else core.operation? name :=
  Table.get?_insert _ _ _ _

theorem operation?_core_absolute : core.operation? absolute.name = none := by decide +kernel

/-- an operator of the basic library is the modulus or one of those that both libraries hold -/
theorem resolve?_basic {name : String} {op : Operation} (h : basic.resolve? name = some op) :
    name = absolute.name ∧ op = absolute ∨ core.operation? name = some op := by
  -- there are no functions to fall back on
  rcases resolve?_eq_some_iff.1 h with h | ⟨-, h⟩
  · rw [operation?_basic] at h
    by_cases hname : absolute.name = name
    · rw [if_pos hname] at h
      exact .inl ⟨hname.symm, (Option.some.inj h).symm⟩
    · rw [if_neg hname] at h
      exact .inr h
  · rw [function?_basic] at h
    cases h

theorem operation?_extended (entropy : UInt64) (name : String) :
    (extended entropy).operation? name = core.operation? name :=
  congrArg (Table.get? · name) (tables_foldl_registerFunction core _).1

/-- the modulus is a function of the extended library -/
theorem function?_extended_absolute (entropy : UInt64) :
    (extended entropy).function? absolute.name = some absolute := by
  rw [extended_eq_registerAll, function?_registerAll]
  rfl

/-- the extended library holds what the basic one does, the modulus in another table -/
theorem extended_extends_basic (entropy : UInt64) : (extended entropy).Extends basic where
  constant {name z} hz := by
    have hconstants : (extended entropy).constants = core.constants := (tables_foldl_registerFunction core _).2
    rw [constant?, constants_basic] at hz
    rwa [constant?, hconstants]
  function {name op} hop := by
    rw [function?_basic] at hop
    cases hop
  resolve {name op} hop := by
    apply resolve?_eq_some_iff.2
    rw [operation?_extended]
    rcases resolve?_basic hop with ⟨rfl, rfl⟩ | hcore
    · exact .inr ⟨operation?_core_absolute, function?_extended_absolute entropy⟩
    · exact .inl hcore

end Library

/-! ## Conservativity -/

/-- **Conservativity.** A definition that a library gives a procedure keeps it under every extension of the library,
with the same programs and so with the same value at any arguments. The extended library gives every procedure that
the basic one gives, although the modulus is an operation in the one and a function in the other. -/
theorem ofDeclaration_extends :
    (∀ lib lib' : Library, lib'.Extends lib → ∀ d p, Procedure.ofDeclaration lib d = .ok p →
      ∃ p', Procedure.ofDeclaration lib' d = .ok p' ∧ p'.declaration = p.declaration ∧ p'.body = p.body ∧
        ∀ args, p'.call args = p.call args) ∧
    (∀ entropy d p, Procedure.ofDeclaration .basic d = .ok p →
      ∃ p', Procedure.ofDeclaration (.extended entropy) d = .ok p' ∧ p'.declaration = p.declaration ∧
        p'.body = p.body ∧ ∀ args, p'.call args = p.call args) ∧
    ∀ entropy, Library.basic.operation? "abs" = some absolute ∧ Library.basic.function? "abs" = none ∧
      (Library.extended entropy).operation? "abs" = none ∧
      (Library.extended entropy).function? "abs" = some absolute := by
  refine ⟨?_, ?_, ?_⟩
  · intro lib lib' h d p hp
    exact ⟨p, h.covers.ofDeclaration d p hp, rfl, rfl, fun _ => rfl⟩
  · intro entropy d p hp
    exact ⟨p, (Library.extended_extends_basic entropy).covers.ofDeclaration d p hp, rfl, rfl, fun _ => rfl⟩
  · intro entropy
    have hbasic : Library.basic.operation? absolute.name = some absolute := by
      rw [Library.operation?_basic, if_pos rfl]
    exact ⟨hbasic, Library.function?_basic _, Library.operation?_core_absolute, Library.function?_extended_absolute entropy⟩

/-- a function under the name of the operation that `signLibrary` holds -/
theorem extends_signLibrary : (signLibrary.registerFunction (.unary "neg" fun z => z)).Extends signLibrary where
  constant h := by cases h
  function h := by cases h
  resolve {name op} hop := by
    rcases Library.resolve?_eq_some_iff.1 hop with hop | ⟨-, hop⟩
    · exact Library.resolve?_eq_some_iff.2 (.inl hop)
    · cases hop

/-- the modulus or a constant by cases: `f(x) = |x| if x != pi; e ^ x` -/
def modulusByCases : Declaration where
  name := "f"
  params := [⟨"x", 0⟩]
  body := .binary "pow" (.constant "e") (.param "x" 0)
  clauses := [⟨[⟨.ne, .param "x" 0, .constant "pi"⟩], .unary "abs" (.param "x" 0)⟩]

theorem ofDeclaration_extends_modulus :
    (∃ p p', Procedure.ofDeclaration signLibrary absByCases = .ok p ∧
      Procedure.ofDeclaration (signLibrary.registerFunction (.unary "neg" fun z => z)) absByCases = .ok p' ∧
      p'.body = p.body) ∧
    ∃ p, Procedure.ofDeclaration .basic modulusByCases = .ok p ∧
      ∀ entropy, ∃ p', Procedure.ofDeclaration (.extended entropy) modulusByCases = .ok p' ∧
        p'.body = p.body ∧ ∀ args, p'.call args = p.call args := by
  obtain ⟨hextension, hstandard, -⟩ := ofDeclaration_extends
  refine ⟨?_, ?_⟩
  · have hp : Procedure.ofDeclaration signLibrary absByCases = .ok _ := rfl
    obtain ⟨p', hp', -, hbody, -⟩ := hextension _ _ extends_signLibrary _ _ hp
    exact ⟨_, p', hp, hp', hbody⟩
  · have hbasic : (Procedure.ofDeclaration .basic modulusByCases).map Procedure.arity = .ok 1 := by decide +kernel
    obtain ⟨p, hp, -⟩ := map_eq_ok_iff.1 hbasic
    refine ⟨p, hp, fun entropy => ?_⟩
    obtain ⟨p', hp', -, hbody, hcall⟩ := hstandard entropy _ p hp
    exact ⟨p', hp', hbody, hcall⟩

end ComplexFormula

/-
Looking names up in a library. Every node of a definition either has an instruction or is refused; nodes are looked up
in order, operands first, clause by clause and then the body. A procedure is made exactly if no node is refused, and
then each of its programs lists the instructions of the nodes of its expression; otherwise the first node that is
refused decides on the fault.

- `Library.Applies`: which entry a node applies to how many operands.
- `Library.Refuses`, `Library.Emits`: the fault of a node, and its instruction.
- `Library.Resolves`: a run that looks up some nodes in order; `Resolves.bind`, `Resolves.mapM`: several such runs.
- `Program.Lists`, `Body.Lists`: programs with one instruction for each node.
- `Expr.code_resolves`, `Body.ofDeclaration_resolves`: expressions and definitions are looked up in order.
- `procedure_resolves`: **resolution** of a definition, and its first fault.
-/
import ComplexFormula.Library.Standard
import ComplexFormula.Procedure
import ComplexFormula.Proofs.Outcome
import ComplexFormula.Proofs.Tree

namespace ComplexFormula

namespace Library

/-! ## Nodes -/

/-- the node applies the entry of that name, if there is one, to so many operands -/
inductive Applies (lib : Library) : Expr → String → Nat → Option Operation → Prop where
  | unary {op a op?} (h : lib.resolve? op = op?) : Applies lib (.unary op a) op 1 op?
  | binary {op a b op?} (h : lib.resolve? op = op?) : Applies lib (.binary op a b) op 2 op?
  /-- calls look among the functions alone -/
  | call {name args op?} (h : lib.function? name = op?) : Applies lib (.call name args) name args.length op?

/-- the node does not find what it needs, whatever its operands are -/
inductive Refuses (lib : Library) : Expr → Fault → Prop where
  | constant {name} (h : lib.constant? name = none) : Refuses lib (.constant name) (.unknownIdentifier name)
  | unknown {n name argc} (h : lib.Applies n name argc none) : Refuses lib n (.unknownOperation name)
  | arity {n name argc op} (h : lib.Applies n name argc (some op)) (hop : op.arity.accepts argc = false) :
    Refuses lib n (.arity name op.arity argc)

/-- the instruction of the node -/
inductive Emits (lib : Library) : Expr → Instr → Prop where
  | number {x} : Emits lib (.number x) (.push (.real x))
  | param {name index} : Emits lib (.param name index) (.load index)
  | constant {name z} (h : lib.constant? name = some z) : Emits lib (.constant name) (.push (.complex z))
  | apply {n name argc op} (h : lib.Applies n name argc (some op)) (hop : op.arity.accepts argc = true) :
    Emits lib n (.apply op argc)

/-- no node is refused -/
def Provides (lib : Library) (nodes : List Expr) : Prop := ∀ n ∈ nodes, ∀ fault, ¬lib.Refuses n fault

/-- the first of the nodes that is refused has that fault -/
inductive RefusesFirst (lib : Library) : List Expr → Fault → Prop where
  | head {n ns fault} (h : lib.Refuses n fault) : RefusesFirst lib (n :: ns) fault
  | tail {n ns fault} (hn : ∀ fault, ¬lib.Refuses n fault) (h : RefusesFirst lib ns fault) :
    RefusesFirst lib (n :: ns) fault

section

variable {lib : Library} {n : Expr} {ns ms : List Expr} {fault fault' : Fault} {name name' : String} {argc argc' : Nat}
  {op? op?' : Option Operation} {i : Instr}

theorem Applies.unique (h : lib.Applies n name argc op?) (h' : lib.Applies n name' argc' op?') :
    name = name' ∧ argc = argc' ∧ op? = op?' := by
  cases h with
  | unary h | binary h | call h =>
    cases h'
    simp_all

theorem Refuses.unique (h : lib.Refuses n fault) (h' : lib.Refuses n fault') : fault = fault' := by
  cases h with
  | constant h =>
    cases h' with
    | constant => rfl
    | unknown happlies | arity happlies => cases happlies
  | unknown h =>
    cases h' with
    | constant => cases h
    | unknown h' => rw [(h.unique h').1]
    | arity h' => cases (h.unique h').2.2
  | arity h =>
    cases h' with
    | constant => cases h
    | unknown h' => cases (h.unique h').2.2
    | arity h' =>
      obtain ⟨rfl, rfl, hop⟩ := h.unique h'
      rw [Option.some.inj hop]

/-- a node that has an instruction is not refused -/
theorem Emits.not_refuses (h : lib.Emits n i) : ¬lib.Refuses n fault := by
  intro hrefuses
  cases h with
  | number | param =>
    cases hrefuses with
    | unknown happlies | arity happlies => cases happlies
  | constant h =>
    cases hrefuses with
    | constant hnone => simp [h] at hnone
    | unknown happlies | arity happlies => cases happlies
  | apply h hop =>
    cases hrefuses with
    | constant => cases h
    | unknown h' => cases (h.unique h').2.2
    | arity h' hop' =>
      obtain ⟨-, rfl, hsome⟩ := h.unique h'
      obtain rfl := Option.some.inj hsome
      rw [hop] at hop'
      cases hop'

/-- a node has one instruction at most -/
theorem emits_rightUnique : Relator.RightUnique lib.Emits := by
  intro n i j hi hj
  cases hi with
  | number =>
    cases hj with
    | number => rfl
    | apply happlies => cases happlies
  | param =>
    cases hj with
    | param => rfl
    | apply happlies => cases happlies
  | constant h =>
    cases hj with
    | constant h' => rw [Option.some.inj (h.symm.trans h')]
    | apply happlies => cases happlies
  | apply h =>
    cases hj with
    | number | param | constant => cases h
    | apply h' =>
      obtain ⟨-, rfl, hop⟩ := h.unique h'
      rw [Option.some.inj hop]

theorem Emits.provides (h : lib.Emits n i) : lib.Provides [n] := List.forall_mem_singleton.2 fun _ => h.not_refuses

theorem Provides.append (hns : lib.Provides ns) (hms : lib.Provides ms) : lib.Provides (ns ++ ms) :=
  List.forall_mem_append.2 ⟨hns, hms⟩

theorem RefusesFirst.unique (h : lib.RefusesFirst ns fault) (h' : lib.RefusesFirst ns fault') : fault = fault' := by
  induction h with
  | head h =>
    cases h' with
    | head h' => exact h.unique h'
    | tail hn => exact absurd h (hn _)
  | tail hn _ ih =>
    cases h' with
    | head h' => exact absurd h' (hn _)
    | tail _ h' => exact ih h'

theorem Provides.not_refusesFirst (hns : lib.Provides ns) : ¬lib.RefusesFirst ns fault := by
  intro h
  induction h with
  | head h => exact hns _ List.mem_cons_self _ h
  | tail _ _ ih => exact ih fun m hm => hns m (List.mem_cons_of_mem _ hm)

theorem RefusesFirst.append_right (h : lib.RefusesFirst ns fault) (ms : List Expr) :
    lib.RefusesFirst (ns ++ ms) fault := by
  induction h with
  | head h => exact .head h
  | tail hn _ ih => exact .tail hn ih

/-- behind nodes that are not refused, the first one that is comes first -/
theorem RefusesFirst.append_left (h : lib.RefusesFirst ms fault) (hns : lib.Provides ns) :
    lib.RefusesFirst (ns ++ ms) fault := by
  induction ns with
  | nil => exact h
  | cons n ns ih =>
    obtain ⟨hn, hns⟩ := List.forall_mem_cons.1 hns
    exact .tail hn (ih hns)

/-- the first node that is refused, and those in front of it -/
theorem refusesFirst_iff : lib.RefusesFirst ns fault ↔
    ∃ before n after, ns = before ++ n :: after ∧ lib.Provides before ∧ lib.Refuses n fault := by
  constructor
  · intro h
    induction h with
    | @head n ns _ h => exact ⟨[], n, ns, rfl, List.forall_mem_nil _, h⟩
    | @tail n _ _ hn _ ih =>
      obtain ⟨before, m, after, rfl, hbefore, hm⟩ := ih
      exact ⟨n :: before, m, after, rfl, List.forall_mem_cons.2 ⟨hn, hbefore⟩, hm⟩
  · intro ⟨before, n, after, hns, hbefore, hn⟩
    rw [hns]
    exact RefusesFirst.append_left (.head hn) hbefore

end

/-! ## Runs -/

/-- the run looks up the nodes in order: it ends in a result of that kind if none is refused, and otherwise in the fault
of the first one that is -/
abbrev Resolves {α : Type} (lib : Library) (nodes : List Expr) (r : α → Prop) (x : Except Fault α) : Prop :=
  EndsIn (lib.RefusesFirst nodes) (fun a => lib.Provides nodes ∧ r a) x

namespace Resolves

variable {α β : Type} {lib : Library} {ns ms : List Expr} {r : α → Prop} {s : β → Prop} {x : Except Fault α}

theorem map {g : α → β} (h : lib.Resolves ns r x) (hg : ∀ a, r a → s (g a)) :
    lib.Resolves ns s (x >>= fun a => pure (g a)) :=
  EndsIn.bind h fun a ha => .ok ⟨ha.1, hg a ha.2⟩

/-- **One run after another** looks up the nodes of both in order. -/
theorem bind {f : α → Except Fault β} (h : lib.Resolves ns r x) (hf : ∀ a, r a → lib.Resolves ms s (f a)) :
    lib.Resolves (ns ++ ms) s (x >>= f) := by
  cases h with
  | error h => exact .error (h.append_right ms)
  | ok h =>
    obtain ⟨hns, ha⟩ := h
    exact (hf _ ha).imp (fun _ hfault => hfault.append_left hns) fun _ hb => ⟨hns.append hb.1, hb.2⟩

theorem mapM {nodes : α → List Expr} {r : α → β → Prop} {f : α → Except Fault β} {as : List α}
    (h : ∀ a ∈ as, lib.Resolves (nodes a) (r a) (f a)) :
    lib.Resolves (as.flatMap nodes) (List.Forall₂ r as) (as.mapM f) := by
  induction as with
  | nil => exact .ok ⟨List.forall_mem_nil _, .nil⟩
  | cons a as ih =>
    obtain ⟨ha, has⟩ := List.forall_mem_cons.1 h
    rw [List.mapM_cons, List.flatMap_cons]
    exact ha.bind fun _ hb => (ih has).map fun _ hbs => .cons hb hbs

theorem ok_iff (h : lib.Resolves ns r x) : (∃ a, x = .ok a) ↔ lib.Provides ns := by
  cases h with
  | ok h => exact ⟨fun _ => h.1, fun _ => ⟨_, rfl⟩⟩
  | error h =>
    constructor
    · intro ⟨a, ha⟩
      cases ha
    · intro hprovides
      exact absurd h hprovides.not_refusesFirst

theorem error_iff {fault : Fault} (h : lib.Resolves ns r x) : x = .error fault ↔ lib.RefusesFirst ns fault := by
  cases h with
  | ok h =>
    constructor
    · intro hfault
      cases hfault
    · intro hfirst
      exact absurd hfirst h.1.not_refusesFirst
  | error h =>
    constructor
    · intro hfault
      rwa [← Except.error.inj hfault]
    · intro hfirst
      rw [h.unique hfirst]

end Resolves

end Library

/-! ## Expressions -/

variable {lib : Library}

theorem application_resolves {n : Expr} {name : String} {argc : Nat} {op? : Option Operation}
    (h : lib.Applies n name argc op?) : lib.Resolves [n] (lib.Emits n) (application op? name argc) := by
  unfold application
  cases op? with
  | none => exact .error (.head (.unknown h))
  | some op =>
    dsimp only
    split
    case isTrue hop =>
      have hemits : lib.Emits n (.apply op argc) := .apply h hop
      exact .ok ⟨hemits.provides, hemits⟩
    case isFalse hop =>
      rw [Bool.not_eq_true] at hop
      exact .error (.head (.arity h hop))

/-- a leaf has one instruction -/
theorem leaf_resolves {n : Expr} {i : Instr} (h : lib.Emits n i) :
    lib.Resolves [n] (List.Forall₂ lib.Emits [n]) (.ok [i]) := .ok ⟨h.provides, .cons h .nil⟩

theorem codeAll_resolves {as : List Expr}
    (has : ∀ a ∈ as, lib.Resolves a.nodes (List.Forall₂ lib.Emits a.nodes) (a.code lib)) :
    lib.Resolves (Expr.nodesAll as) (List.Forall₂ lib.Emits (Expr.nodesAll as)) (Expr.codeAll lib as) := by
  induction as with
  | nil => exact .ok ⟨List.forall_mem_nil _, .nil⟩
  | cons a as ih =>
    obtain ⟨ha, has⟩ := List.forall_mem_cons.1 has
    exact ha.bind fun _ hfirst => (ih has).map fun _ hothers => List.rel_append hfirst hothers

/-- **The code of an expression** is that of its nodes, in order. -/
theorem Expr.code_resolves (e : Expr) :
    lib.Resolves e.nodes (List.Forall₂ lib.Emits e.nodes) (e.code lib) := by
  induction e using Expr.induct with
  | number x => exact leaf_resolves .number
  | param name index => exact leaf_resolves .param
  | constant name =>
    rw [code]
    cases hz : lib.constant? name with
    | none => exact .error (.head (.constant hz))
    | some z => exact leaf_resolves (.constant hz)
  | unary op a ih =>
    refine ih.bind fun is his => (application_resolves (.unary rfl)).map fun i hi => ?_
    exact List.rel_append his (.cons hi .nil)
  | binary op a b iha ihb =>
    rw [nodes, List.append_assoc]
    refine iha.bind fun is his => ihb.bind fun js hjs => (application_resolves (.binary rfl)).map fun i hi => ?_
    rw [List.append_assoc]
    exact List.rel_append his (List.rel_append hjs (.cons hi .nil))
  | call name args ih =>
    refine (codeAll_resolves ih).bind fun is his => (application_resolves (.call rfl)).map fun i hi => ?_
    exact List.rel_append his (.cons hi .nil)

/-- the program lists the nodes of the expression: one instruction for each, in order -/
def Program.Lists (lib : Library) (e : Expr) (p : Program) : Prop := List.Forall₂ lib.Emits e.nodes p.instrs

theorem Program.lists_rightUnique : Relator.RightUnique (Program.Lists lib) := by
  intro e p p' h h'
  exact congrArg Program.mk (Library.emits_rightUnique.forall₂ h h')

theorem Program.ofExpr_resolves (e : Expr) : lib.Resolves e.nodes (Program.Lists lib e) (Program.ofExpr lib e) :=
  e.code_resolves.map fun _ his => his

/-! ## Definitions -/

/-- the relation stays, and the programs list both sides -/
structure Check.Lists (lib : Library) (c : Comparison) (check : Check) : Prop where
  relation : check.relation = c.relation
  left : Program.Lists lib c.left check.left
  right : Program.Lists lib c.right check.right

/-- one check for each comparison of the guard, and the program lists the value -/
structure Branch.Lists (lib : Library) (c : Clause) (b : Branch) : Prop where
  guard : List.Forall₂ (Check.Lists lib) c.guard b.guard
  value : Program.Lists lib c.value b.value

/-- one branch for each clause, and the last program lists the body -/
structure Body.Lists (lib : Library) (d : Declaration) (b : Body) : Prop where
  branches : List.Forall₂ (Branch.Lists lib) d.clauses b.branches
  fallback : Program.Lists lib d.body b.fallback

theorem Check.lists_rightUnique : Relator.RightUnique (Check.Lists lib) := by
  intro c ⟨relation, left, right⟩ ⟨relation', left', right'⟩ h h'
  obtain rfl : relation = relation' := h.relation.trans h'.relation.symm
  obtain rfl : left = left' := Program.lists_rightUnique h.left h'.left
  obtain rfl : right = right' := Program.lists_rightUnique h.right h'.right
  rfl

theorem Branch.lists_rightUnique : Relator.RightUnique (Branch.Lists lib) := by
  intro c ⟨guard, value⟩ ⟨guard', value'⟩ h h'
  obtain rfl : guard = guard' := Check.lists_rightUnique.forall₂ h.guard h'.guard
  obtain rfl : value = value' := Program.lists_rightUnique h.value h'.value
  rfl

/-- no other body lists the same definition -/
theorem Body.lists_rightUnique : Relator.RightUnique (Body.Lists lib) := by
  intro d ⟨branches, fallback⟩ ⟨branches', fallback'⟩ h h'
  obtain rfl : branches = branches' := Branch.lists_rightUnique.forall₂ h.branches h'.branches
  obtain rfl : fallback = fallback' := Program.lists_rightUnique h.fallback h'.fallback
  rfl

/-- the left side is looked up before the right one -/
theorem Check.ofComparison_resolves (c : Comparison) :
    lib.Resolves (c.exprs.flatMap Expr.nodes) (Check.Lists lib c) (Check.ofComparison lib c) := by
  have hnodes : c.exprs.flatMap Expr.nodes = c.left.nodes ++ c.right.nodes := by simp [Comparison.exprs]
  rw [hnodes]
  exact (Program.ofExpr_resolves c.left).bind fun _ hleft =>
    (Program.ofExpr_resolves c.right).map fun _ hright => ⟨rfl, hleft, hright⟩

/-- the guard is looked up before the value -/
theorem Branch.ofClause_resolves (c : Clause) :
    lib.Resolves (c.exprs.flatMap Expr.nodes) (Branch.Lists lib c) (Branch.ofClause lib c) := by
  have hnodes : c.exprs.flatMap Expr.nodes =
      c.guard.flatMap (fun comparison => comparison.exprs.flatMap Expr.nodes) ++ c.value.nodes := by
    simp [Clause.exprs, List.flatMap_assoc]
  rw [hnodes]
  exact (Library.Resolves.mapM fun comparison _ => Check.ofComparison_resolves comparison).bind fun _ hguard =>
    (Program.ofExpr_resolves c.value).map fun _ hvalue => ⟨hguard, hvalue⟩

/-- **Definitions are looked up in order**, clause by clause and then the body. -/
theorem Body.ofDeclaration_resolves (d : Declaration) :
    lib.Resolves d.nodes (Body.Lists lib d) (Body.ofDeclaration lib d) := by
  have hnodes : d.nodes = d.clauses.flatMap (fun c => c.exprs.flatMap Expr.nodes) ++ d.body.nodes := by
    simp [Declaration.nodes, Declaration.exprs, List.flatMap_assoc]
  rw [hnodes]
  exact (Library.Resolves.mapM fun c _ => Branch.ofClause_resolves c).bind fun _ hbranches =>
    (Program.ofExpr_resolves d.body).map fun _ hfallback => ⟨hbranches, hfallback⟩

theorem Procedure.ofDeclaration_resolves (d : Declaration) :
    lib.Resolves d.nodes (fun p => p.declaration = d ∧ Body.Lists lib d p.body) (Procedure.ofDeclaration lib d) :=
  (Body.ofDeclaration_resolves d).map fun _ hb => ⟨rfl, hb⟩

/-- **Resolution.** A definition has a procedure exactly if none of its nodes is refused, and then every program lists
the nodes of its expression, which is true of no other body. Otherwise the fault is that of the first node that is
refused, in the order of the nodes. -/
theorem procedure_resolves (lib : Library) (d : Declaration) :
    ((∃ p, Procedure.ofDeclaration lib d = .ok p) ↔ lib.Provides d.nodes) ∧
      (∀ p, Procedure.ofDeclaration lib d = .ok p →
        p.declaration = d ∧ Body.Lists lib d p.body ∧ ∀ b, Body.Lists lib d b → b = p.body) ∧
      ∀ fault, Procedure.ofDeclaration lib d = .error fault ↔
        ∃ before n after, d.nodes = before ++ n :: after ∧ lib.Provides before ∧ lib.Refuses n fault := by
  have hresolves : lib.Resolves d.nodes _ (Procedure.ofDeclaration lib d) := Procedure.ofDeclaration_resolves d
  refine ⟨hresolves.ok_iff, ?_, ?_⟩
  · intro p hp
    obtain ⟨-, hdeclaration, hlists⟩ := hresolves.of_eq_ok hp
    exact ⟨hdeclaration, hlists, fun b hb => Body.lists_rightUnique hb hlists⟩
  · intro fault
    rw [hresolves.error_iff, Library.refusesFirst_iff]

/-- `f(x) = abs(x) + q if x! < i; e`, where the plain library refuses the call, the constant `q` and nothing else -/
def absentByCases : Declaration where
  name := "f"
  params := [⟨"x", 0⟩]
  body := .constant "e"
  clauses := [⟨[⟨.lt, .unary "fac" (.param "x" 0), .constant "i"⟩],
    .binary "add" (.call "abs" [.param "x" 0]) (.constant "q")⟩]

/-- the call comes first, although the constant is a leaf and there is an operation of the name of the function -/
theorem procedure_resolves_absent :
    (∃ before n after, absentByCases.nodes = before ++ n :: after ∧ Library.basic.Provides before ∧
        Library.basic.Refuses n (.unknownOperation "abs")) ∧
      ∃ p, Procedure.ofDeclaration .basic absentByCases.withoutClauses = .ok p ∧
        Body.Lists .basic absentByCases.withoutClauses p.body := by
  constructor
  · have hfault : (Procedure.ofDeclaration .basic absentByCases).map Procedure.arity =
        .error (.unknownOperation "abs") := by decide +kernel
    exact ((procedure_resolves .basic absentByCases).2.2 _).1 (map_eq_error_iff.1 hfault)
  · have hok : (Procedure.ofDeclaration .basic absentByCases.withoutClauses).map Procedure.arity = .ok 1 := by
      decide +kernel
    obtain ⟨p, hp, -⟩ := map_eq_ok_iff.1 hok
    exact ⟨p, hp, ((procedure_resolves .basic absentByCases.withoutClauses).2.1 p hp).2.1⟩

end ComplexFormula

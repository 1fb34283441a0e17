/-
Programs that are compared by signature. Operations count as equal if name and arity are, whatever they do; but in one
library a name stands for one operation of each table, and so the comparison is sound there as soon as an operation and
a function of the same signature do the same. Two bodies that agree up to it run in step: the stacks are the same after
every instruction.

- `Instr.Agrees`, `Body.Agrees`: the same instructions, operations being compared by signature.
- `Library.Coherent`: an operation and a function of the same signature do the same.
- `Library.Filled.determines`: in a coherent library a signature determines the operation.
- `exec_eq_of_agrees`, `execAll_eq_of_agrees`: one instruction and a whole program, in step.
- `Body.Agrees.eval_eq`: **soundness** of the comparison.
- `Body.Agrees.beq_iff`: where bodies that agree are equal as the comparison of floats has it.
-/
import ComplexFormula.Proofs.Library.Store
import ComplexFormula.Proofs.Resolution
import ComplexFormula.Proofs.Safety

namespace ComplexFormula

/-! ## Agreement -/

theorem Operation.beq_iff {p q : Operation} : (p == q) = true ↔ p.name = q.name ∧ p.arity = q.arity := by
  simp [BEq.beq]

/-- the same instruction, up to what the operation does -/
inductive Instr.Agrees : Instr → Instr → Prop where
  /-- the same value, bit by bit -/
  | push {v} : Agrees (.push v) (.push v)
  | load {index} : Agrees (.load index) (.load index)
  | apply {p q argc} (h : (p == q) = true) : Agrees (.apply p argc) (.apply q argc)

/-- instruction by instruction -/
def Program.Agrees (p q : Program) : Prop := List.Forall₂ Instr.Agrees p.instrs q.instrs

/-- the same relation between sides that agree -/
structure Check.Agrees (c d : Check) : Prop where
  relation : c.relation = d.relation
  left : c.left.Agrees d.left
  right : c.right.Agrees d.right

/-- as many checks, and values that agree -/
structure Branch.Agrees (b c : Branch) : Prop where
  guard : List.Forall₂ Check.Agrees b.guard c.guard
  value : b.value.Agrees c.value

/-- as many branches, and fallbacks that agree -/
structure Body.Agrees (b c : Body) : Prop where
  branches : List.Forall₂ Branch.Agrees b.branches c.branches
  fallback : b.fallback.Agrees c.fallback

/-! ## Operations of a library -/

namespace Library

/-- an operation and a function of the same signature do the same to all operands that they accept in number -/
def Coherent (lib : Library) : Prop :=
  ∀ name name' p q, lib.operation? name = some p → lib.function? name' = some q → (p == q) = true →
    ∀ operands : List Value, p.arity.accepts operands.length = true → p.body operands = q.body operands

/-- the operation stands in one of the two tables -/
def Holds (lib : Library) (p : Operation) : Prop := ∃ name, lib.operation? name = some p ∨ lib.function? name = some p

variable {lib : Library} {p q : Operation} {name : String} {argc : Nat} {n : Expr} {i : Instr}

theorem Applies.holds (h : lib.Applies n name argc (some p)) : lib.Holds p := by
  cases h with
  | unary h | binary h =>
    rcases resolve?_eq_some_iff.1 h with h | ⟨-, h⟩
    · exact ⟨_, .inl h⟩
    · exact ⟨_, .inr h⟩
  | call h => exact ⟨_, .inr h⟩

theorem call_eq_of_body_eq (h : (p == q) = true)
    (hbody : ∀ operands : List Value, p.arity.accepts operands.length = true → p.body operands = q.body operands) :
    p.call = q.call := by
  obtain ⟨hname, harity⟩ := Operation.beq_iff.1 h
  funext operands
  rw [Operation.call, Operation.call, ← hname, ← harity]
  by_cases haccepts : p.arity.accepts operands.length = true
  · rw [if_pos haccepts, if_pos haccepts, hbody operands haccepts]
  · rw [if_neg haccepts, if_neg haccepts]

/-- **A signature determines the operation** in a library that was filled by registrations and is coherent: each table
has one operation of the name, and the two do the same. -/
theorem Filled.determines (h : lib.Filled) (hcoherent : lib.Coherent) (hp : lib.Holds p) (hq : lib.Holds q)
    (hpq : (p == q) = true) : p.call = q.call := by
  obtain ⟨hname, harity⟩ := Operation.beq_iff.1 hpq
  obtain ⟨name, hp⟩ := hp
  obtain ⟨name', hq⟩ := hq
  rcases hp with hp | hp <;> rcases hq with hq | hq
  · obtain rfl : name = name' := by rw [← h.operation_name hp, ← h.operation_name hq, hname]
    rw [Option.some.inj (hp.symm.trans hq)]
  · exact call_eq_of_body_eq hpq (hcoherent _ _ p q hp hq hpq)
  · have hqp : (q == p) = true := Operation.beq_iff.2 ⟨hname.symm, harity.symm⟩
    exact (call_eq_of_body_eq hqp (hcoherent _ _ q p hq hp hqp)).symm
  · obtain rfl : name = name' := by rw [← h.function_name hp, ← h.function_name hq, hname]
    rw [Option.some.inj (hp.symm.trans hq)]

end Library

/-! ## Programs of a library -/

/-- an applied operation stands in the library -/
def Instr.IsFrom (lib : Library) : Instr → Prop
  | .apply op _ => lib.Holds op
  | _ => True

/-- every operation that the program applies stands in the library -/
def Program.IsFrom (lib : Library) (p : Program) : Prop := ∀ i ∈ p.instrs, i.IsFrom lib

section

variable {lib : Library} {d : Declaration} {b : Body}

theorem Library.Emits.isFrom {n : Expr} {i : Instr} (h : lib.Emits n i) : i.IsFrom lib := by
  cases h with
  | number | param | constant => trivial
  | apply h => exact h.holds

/-- the programs list the expressions of the definition, in order -/
theorem Body.Lists.programs (h : Body.Lists lib d b) : List.Forall₂ (Program.Lists lib) d.exprs b.programs := by
  have hcheck : ∀ {c k}, Check.Lists lib c k → List.Forall₂ (Program.Lists lib) c.exprs k.programs :=
    fun hk => .cons hk.left (.cons hk.right .nil)
  have hbranch : ∀ {c k}, Branch.Lists lib c k → List.Forall₂ (Program.Lists lib) c.exprs k.programs :=
    fun hk => List.rel_append (List.rel_flatMap hk.guard fun _ _ => hcheck) (.cons hk.value .nil)
  exact List.rel_append (List.rel_flatMap h.branches fun _ _ => hbranch) (.cons h.fallback .nil)

theorem lists_of_ofDeclaration {p : Procedure} (h : Procedure.ofDeclaration lib d = .ok p) : Body.Lists lib d p.body :=
  ((Procedure.ofDeclaration_resolves d).of_eq_ok h).2.2

/-- every program of a procedure applies operations of its library and no others -/
theorem isFrom_of_lists (h : Body.Lists lib d b) {p : Program} (hp : p ∈ b.programs) : p.IsFrom lib := by
  obtain ⟨e, -, he⟩ := exists_of_forall₂ h.programs hp
  intro i hi
  obtain ⟨n, -, hn⟩ := exists_of_forall₂ he hi
  exact hn.isFrom

end

/-! ## Runs in step -/

section

variable {lib : Library} (hlib : lib.Filled) (hcoherent : lib.Coherent) {args : List Value}

include hlib hcoherent

/-- **One instruction** of two that agree leaves the same stack, or the same fault. -/
theorem exec_eq_of_agrees {i j : Instr} (h : i.Agrees j) (hi : i.IsFrom lib) (hj : j.IsFrom lib)
    (stack : List Value) : i.exec args stack = j.exec args stack := by
  cases h with
  | push | load => rfl
  | apply hpq =>
    obtain ⟨hname, harity⟩ := Operation.beq_iff.1 hpq
    rw [Instr.exec, Instr.exec, hname, harity, hlib.determines hcoherent hi hj hpq]

/-- **Two runs in step**: the same stack after all instructions, or the first fault of both. -/
theorem execAll_eq_of_agrees {is js : List Instr} (h : List.Forall₂ Instr.Agrees is js)
    (his : ∀ i ∈ is, i.IsFrom lib) (hjs : ∀ j ∈ js, j.IsFrom lib) (stack : List Value) :
    Instr.execAll args is stack = Instr.execAll args js stack := by
  induction h generalizing stack with
  | nil => rfl
  | cons hij _ ih =>
    obtain ⟨hi, his⟩ := List.forall_mem_cons.1 his
    obtain ⟨hj, hjs⟩ := List.forall_mem_cons.1 hjs
    rw [Instr.execAll, Instr.execAll, exec_eq_of_agrees hlib hcoherent hij hi hj]
    split
    · rfl
    · exact ih his hjs _

theorem Program.Agrees.run_eq {p q : Program} (h : p.Agrees q) (hp : p.IsFrom lib) (hq : q.IsFrom lib) :
    p.run args = q.run args := by
  rw [Program.run, Program.run, execAll_eq_of_agrees hlib hcoherent h hp hq]

theorem Check.Agrees.holds_eq {c d : Check} (h : c.Agrees d) (hc : ∀ p ∈ c.programs, p.IsFrom lib)
    (hd : ∀ p ∈ d.programs, p.IsFrom lib) : c.holds args = d.holds args := by
  simp only [Check.programs, List.forall_mem_cons] at hc hd
  rw [Check.holds, Check.holds, h.relation, h.left.run_eq hlib hcoherent hc.1 hd.1,
    h.right.run_eq hlib hcoherent hc.2.1 hd.2.1]

/-- guards are decided alike, and stop at the same check -/
theorem allHold_eq_of_agrees {cs ds : List Check} (h : List.Forall₂ Check.Agrees cs ds)
    (hcs : ∀ p ∈ cs.flatMap Check.programs, p.IsFrom lib) (hds : ∀ p ∈ ds.flatMap Check.programs, p.IsFrom lib) :
    Check.allHold args cs = Check.allHold args ds := by
  induction h with
  | nil => rfl
  | cons hcd _ ih =>
    rw [List.flatMap_cons, List.forall_mem_append] at hcs hds
    rw [Check.allHold, Check.allHold, hcd.holds_eq hlib hcoherent hcs.1 hds.1, ih hcs.2 hds.2]

theorem evalFrom_eq_of_agrees {f g : Program} (hfg : f.Agrees g) (hf : f.IsFrom lib) (hg : g.IsFrom lib)
    {bs cs : List Branch} (h : List.Forall₂ Branch.Agrees bs cs)
    (hbs : ∀ p ∈ bs.flatMap Branch.programs, p.IsFrom lib) (hcs : ∀ p ∈ cs.flatMap Branch.programs, p.IsFrom lib) :
    Body.evalFrom f args bs = Body.evalFrom g args cs := by
  induction h with
  | nil => exact hfg.run_eq hlib hcoherent hf hg
  | cons hbc _ ih =>
    rw [List.flatMap_cons, List.forall_mem_append, Branch.programs, List.forall_mem_append,
      List.forall_mem_singleton] at hbs hcs
    obtain ⟨⟨hguard, hvalue⟩, hbs⟩ := hbs
    obtain ⟨⟨hguard', hvalue'⟩, hcs⟩ := hcs
    rw [Body.evalFrom, Body.evalFrom, allHold_eq_of_agrees hlib hcoherent hbc.guard hguard hguard',
      hbc.value.run_eq hlib hcoherent hvalue hvalue', ih hbs hcs]

/-- **Soundness.** Bodies that were made over one coherent library and agree have the same value or fault at all
arguments. -/
theorem Body.Agrees.eval_eq {b c : Body} (h : b.Agrees c) (hb : ∀ p ∈ b.programs, p.IsFrom lib)
    (hc : ∀ p ∈ c.programs, p.IsFrom lib) : b.eval args = c.eval args := by
  rw [Body.programs, List.forall_mem_append, List.forall_mem_singleton] at hb hc
  exact evalFrom_eq_of_agrees hlib hcoherent h.fallback hb.2 hc.2 h.branches hb.1 hc.1

/-- two procedures of the library -/
theorem eval_eq_of_agrees {d d' : Declaration} {p p' : Procedure} (hp : Procedure.ofDeclaration lib d = .ok p)
    (hp' : Procedure.ofDeclaration lib d' = .ok p') (h : p.body.Agrees p'.body) (args : List Value) :
    p.body.eval args = p'.body.eval args :=
  h.eval_eq hlib hcoherent (fun _ => isFrom_of_lists (lists_of_ofDeclaration hp)) fun _ =>
    isFrom_of_lists (lists_of_ofDeclaration hp')

end

/-! ## Equal bodies -/

/-- the pushed value equals itself, as those with a NaN in them do not -/
def Instr.EqualsItself : Instr → Prop
  | .push v => (v == v) = true
  | _ => True

/-- every pushed value equals itself -/
def Program.EqualsItself (p : Program) : Prop := ∀ i ∈ p.instrs, i.EqualsItself

/-- lists of entries that pairwise are equal under a condition each are equal under all the conditions -/
theorem list_beq_iff {α : Type} [BEq α] {r : α → α → Prop} {s : α → Prop} {as bs : List α}
    (hab : List.Forall₂ r as bs) (h : ∀ a b, r a b → ((a == b) = true ↔ s a)) :
    (as == bs) = true ↔ ∀ a ∈ as, s a := by
  induction hab with
  | nil => simp
  | cons hab _ ih => rw [List.cons_beq_cons, Bool.and_eq_true, h _ _ hab, ih, List.forall_mem_cons]

theorem Instr.Agrees.beq_iff {i j : Instr} (h : i.Agrees j) : (i == j) = true ↔ i.EqualsItself := by
  cases h with
  | push => exact Iff.rfl
  | @load index => exact iff_of_true (beq_self_eq_true index) trivial
  | @apply p q argc hpq =>
    have hbeq : (Instr.apply p argc == Instr.apply q argc) = (p == q && argc == argc) := rfl
    exact iff_of_true (by rw [hbeq, hpq, beq_self_eq_true, Bool.and_self]) trivial

theorem Program.Agrees.beq_iff {p q : Program} (h : p.Agrees q) : (p == q) = true ↔ p.EqualsItself :=
  list_beq_iff h fun _ _ => Instr.Agrees.beq_iff

theorem Check.Agrees.beq_iff {c d : Check} (h : c.Agrees d) :
    (c == d) = true ↔ ∀ p ∈ c.programs, p.EqualsItself := by
  have hbeq : (c == d) = (c.relation == d.relation && (c.left == d.left && c.right == d.right)) := rfl
  rw [hbeq, h.relation, beq_self_eq_true, Bool.true_and, Bool.and_eq_true, h.left.beq_iff, h.right.beq_iff]
  simp [Check.programs]

theorem Branch.Agrees.beq_iff {b c : Branch} (h : b.Agrees c) :
    (b == c) = true ↔ ∀ p ∈ b.programs, p.EqualsItself := by
  have hbeq : (b == c) = (b.guard == c.guard && b.value == c.value) := rfl
  rw [hbeq, Bool.and_eq_true, list_beq_iff h.guard fun _ _ => Check.Agrees.beq_iff, h.value.beq_iff, Branch.programs,
    List.forall_mem_append, List.forall_mem_singleton, List.forall_mem_flatMap]

/-- **Equality.** Bodies that agree are equal exactly if no program pushes a value that differs from itself. -/
theorem Body.Agrees.beq_iff {b c : Body} (h : b.Agrees c) : (b == c) = true ↔ ∀ p ∈ b.programs, p.EqualsItself := by
  have hbeq : (b == c) = (b.branches == c.branches && b.fallback == c.fallback) := rfl
  rw [hbeq, Bool.and_eq_true, list_beq_iff h.branches fun _ _ => Branch.Agrees.beq_iff, h.fallback.beq_iff,
    Body.programs, List.forall_mem_append, List.forall_mem_singleton, List.forall_mem_flatMap]

theorem forall_mem_iff_of_forall₂ {α β : Type} {r : α → β → Prop} {s : α → Prop} {t : β → Prop} {as : List α}
    {bs : List β} (hab : List.Forall₂ r as bs) (h : ∀ a b, r a b → (s a ↔ t b)) :
    (∀ a ∈ as, s a) ↔ ∀ b ∈ bs, t b := by
  induction hab with
  | nil => simp
  | cons hab _ ih => rw [List.forall_mem_cons, List.forall_mem_cons, h _ _ hab, ih]

/-- NaN is the one number that differs from itself -/
theorem Binary64.beq_self_iff {x : Binary64} : (x == x) = true ↔ x.isNaN = false := by
  simp [BEq.beq]

section

variable {lib : Library} (hconstants : ∀ name z, lib.constant? name = some z → (z == z) = true)

include hconstants

theorem equalsItself_of_emits {n : Expr} {i : Instr} (h : lib.Emits n i) :
    (∀ x, n = .number x → x.isNaN = false) ↔ i.EqualsItself := by
  cases h with
  | @number x =>
    have hbeq : (Instr.push (.real x)).EqualsItself ↔ (x == x) = true := Iff.rfl
    simp [hbeq, Binary64.beq_self_iff]
  | param => exact iff_of_true (fun _ h => by cases h) trivial
  | constant hz => exact iff_of_true (fun _ h => by cases h) (hconstants _ _ hz)
  | apply happlies => exact iff_of_true (by rintro x rfl; cases happlies) trivial

theorem equalsItself_of_lists {e : Expr} {p : Program} (h : Program.Lists lib e p) :
    (∀ x ∈ e.literals, x.isNaN = false) ↔ p.EqualsItself := by
  rw [Program.EqualsItself, ← forall_mem_iff_of_forall₂ h fun _ _ => equalsItself_of_emits hconstants]
  simp only [Expr.mem_literals]
  exact ⟨fun h n hn x hx => h x (hx ▸ hn), fun h x hx => h _ hx x rfl⟩

/-- where no constant is NaN, it depends on the literals alone -/
theorem forall_equalsItself_iff {d : Declaration} {b : Body} (h : Body.Lists lib d b) :
    (∀ p ∈ b.programs, p.EqualsItself) ↔ ∀ x ∈ d.literals, x.isNaN = false := by
  rw [Declaration.literals, List.forall_mem_flatMap]
  exact (forall_mem_iff_of_forall₂ h.programs fun _ _ => equalsItself_of_lists hconstants).symm

end

end ComplexFormula

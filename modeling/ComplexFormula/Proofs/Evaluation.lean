/-
Calling a procedure is evaluating its definition. The definition is evaluated over its trees, with every name looked up
where it stands; the procedure runs programs in which nothing is left to look up. Both give the same value, and where
they fail, the same first fault.

- `Expr.eval`, `evalGuard`, `Declaration.eval`: evaluation over trees.
- `execAll_code`: the code of an expression pushes its value, whatever lies below on the stack.
- `call_eq_eval`: **refinement**, a procedure at arguments of any number and any kind.
-/
import ComplexFormula.Procedure
import ComplexFormula.Proofs.Outcome
import ComplexFormula.Proofs.Tree

namespace ComplexFormula

/-! ## Evaluation over trees -/

/-- the value of the operation found under a name -/
def evalApplication (op? : Option Operation) (name : String) (operands : List Value) : Except Fault Value :=
  match op? with
  | none => .error (.unknownOperation name)
  | some op => (op.call operands).map .complex

namespace Expr

mutual

/-- the value of the expression at the arguments, operands from left to right -/
def eval (lib : Library) (args : List Value) : Expr → Except Fault Value
  | .number x => .ok (.real x)
  | .param _ index =>
    match args[index]? with
    | some v => .ok v
    | none => .error (.argumentCount (index + 1) args.length)
  | .constant name =>
    match lib.constant? name with
    | some z => .ok (.complex z)
    | none => .error (.unknownIdentifier name)
  | .unary op a => do
    let v ← a.eval lib args
    evalApplication (lib.resolve? op) op [v]
  | .binary op a b => do
    let v ← a.eval lib args
    let w ← b.eval lib args
    evalApplication (lib.resolve? op) op [v, w]
  | .call name as => do
    let vs ← evalAll lib args as
    evalApplication (lib.function? name) name vs

/-- the values of several expressions in order -/
def evalAll (lib : Library) (args : List Value) : List Expr → Except Fault (List Value)
  | [] => .ok []
  | a :: as => do
    let v ← a.eval lib args
    let vs ← evalAll lib args as
    return v :: vs

end

end Expr

/-- the comparison holds, its left side evaluated first -/
def Comparison.eval (lib : Library) (args : List Value) (c : Comparison) : Except Fault Bool := do
  let v ← c.left.eval lib args
  let w ← c.right.eval lib args
  (c.relation.compare v w).mapError .domain

/-- all comparisons hold; those behind a false one are not evaluated -/
def evalGuard (lib : Library) (args : List Value) : List Comparison → Except Fault Bool
  | [] => .ok true
  | c :: cs => do if ← c.eval lib args then evalGuard lib args cs else return false

/-- the value of the first clause whose guard holds, or else that of the body -/
def evalClauses (lib : Library) (args : List Value) (body : Expr) : List Clause → Except Fault Value
  | [] => body.eval lib args
  | c :: cs => do if ← evalGuard lib args c.guard then c.value.eval lib args else evalClauses lib args body cs

/-- the value of the definition at the arguments, whose number has to be right -/
def Declaration.eval (lib : Library) (d : Declaration) (args : List Value) : Except Fault Value :=
  if args.length = d.params.length then evalClauses lib args d.body d.clauses
  else .error (.argumentCount d.params.length args.length)

/-! ## Code -/

/-- code one part after the other -/
theorem execAll_append (args : List Value) (is js : List Instr) (stack : List Value) :
    Instr.execAll args (is ++ js) stack = Instr.execAll args is stack >>= Instr.execAll args js := by
  induction is generalizing stack with
  | nil => rfl
  | cons i is ih =>
    rw [List.cons_append, Instr.execAll, Instr.execAll]
    cases i.exec args stack with
    | error fault => rfl
    | ok stack => exact ih stack

/-- an application is emitted for an entry that accepts the number of operands -/
theorem application_eq_ok_iff {op? : Option Operation} {name : String} {argc : Nat} {i : Instr} :
    application op? name argc = .ok i ↔ ∃ op, op? = some op ∧ op.arity.accepts argc = true ∧ i = .apply op argc := by
  unfold application
  cases op? with
  | none => simp
  | some op =>
    by_cases h : op.arity.accepts argc = true
    · simp only [h, if_true, Except.ok.injEq, Option.some.injEq, exists_eq_left', true_and]
      exact eq_comm
    · simp [h]

/-- an application takes its operands off and pushes the value -/
theorem execAll_application {op? : Option Operation} {name : String} {i : Instr} (args operands stack : List Value)
    (h : application op? name operands.length = .ok i) :
    Instr.execAll args [i] (operands.reverse ++ stack) = (evalApplication op? name operands).map (· :: stack) := by
  obtain ⟨op, rfl, -, rfl⟩ := application_eq_ok_iff.1 h
  simp only [Instr.execAll, Instr.exec, Stack.popMany?_reverse_append, evalApplication]
  cases op.call operands <;> rfl

theorem evalAll_length {lib : Library} {args vs : List Value} {as : List Expr} (h : Expr.evalAll lib args as = .ok vs) :
    vs.length = as.length := by
  induction as generalizing vs with
  | nil =>
    obtain rfl := Except.ok.inj h
    rfl
  | cons a as ih =>
    obtain ⟨v, -, h⟩ := bind_eq_ok_iff.1 h
    obtain ⟨ws, hws, h⟩ := bind_eq_ok_iff.1 h
    obtain rfl := Except.ok.inj h
    rw [List.length_cons, List.length_cons, ih hws]

/-- the code of an expression pushes its value, or fails as its evaluation does -/
def Pushes (lib : Library) (args : List Value) (e : Expr) : Prop :=
  ∀ is stack, e.code lib = .ok is → Instr.execAll args is stack = (e.eval lib args).map (· :: stack)

theorem execAll_codeAll {lib : Library} {args : List Value} {as : List Expr} (has : ∀ a ∈ as, Pushes lib args a)
    {is : List Instr} (h : Expr.codeAll lib as = .ok is) (stack : List Value) :
    Instr.execAll args is stack = (Expr.evalAll lib args as).map (·.reverse ++ stack) := by
  induction as generalizing is stack with
  | nil =>
    obtain rfl := Except.ok.inj h
    rfl
  | cons a as ih =>
    obtain ⟨js, hjs, h⟩ := bind_eq_ok_iff.1 h
    obtain ⟨ks, hks, h⟩ := bind_eq_ok_iff.1 h
    obtain rfl := Except.ok.inj h
    have ha := has a List.mem_cons_self js stack hjs
    rw [execAll_append, ha, Expr.evalAll]
    cases a.eval lib args with
    | error fault => rfl
    | ok v =>
      have hrest := ih (fun b hb => has b (List.mem_cons_of_mem a hb)) hks (v :: stack)
      simp only [Except.map, ok_bind, hrest]
      cases Expr.evalAll lib args as <;> simp

/-- **The code of an expression pushes its value** on any stack, and fails as the evaluation of the tree does. -/
theorem execAll_code (lib : Library) (args : List Value) (e : Expr) : Pushes lib args e := by
  induction e using Expr.induct with
  | number x =>
    intro is stack h
    obtain rfl := Except.ok.inj h
    rfl
  | param name index =>
    intro is stack h
    obtain rfl := Except.ok.inj h
    simp only [Instr.execAll, Instr.exec, Expr.eval]
    cases args[index]? <;> rfl
  | constant name =>
    intro is stack h
    rw [Expr.code] at h
    rw [Expr.eval]
    cases hz : lib.constant? name with
    | none => simp [hz] at h
    | some z =>
      rw [hz] at h
      obtain rfl := Except.ok.inj h
      rfl
  | unary op a ih =>
    intro is stack h
    obtain ⟨js, hjs, h⟩ := bind_eq_ok_iff.1 h
    obtain ⟨i, hi, h⟩ := bind_eq_ok_iff.1 h
    obtain rfl := Except.ok.inj h
    rw [execAll_append, ih js stack hjs, Expr.eval]
    cases a.eval lib args with
    | error fault => rfl
    | ok v => exact execAll_application args [v] stack hi
  | binary op a b iha ihb =>
    intro is stack h
    obtain ⟨js, hjs, h⟩ := bind_eq_ok_iff.1 h
    obtain ⟨ks, hks, h⟩ := bind_eq_ok_iff.1 h
    obtain ⟨i, hi, h⟩ := bind_eq_ok_iff.1 h
    obtain rfl := Except.ok.inj h
    rw [execAll_append, execAll_append, iha js stack hjs, Expr.eval]
    cases a.eval lib args with
    | error fault => rfl
    | ok v =>
      simp only [Except.map, ok_bind, ihb ks (v :: stack) hks]
      cases b.eval lib args with
      | error fault => rfl
      | ok w => exact execAll_application args [v, w] stack hi
  | call name as ih =>
    intro is stack h
    obtain ⟨js, hjs, h⟩ := bind_eq_ok_iff.1 h
    obtain ⟨i, hi, h⟩ := bind_eq_ok_iff.1 h
    obtain rfl := Except.ok.inj h
    rw [execAll_append, execAll_codeAll ih hjs, Expr.eval]
    cases hvs : Expr.evalAll lib args as with
    | error fault => rfl
    | ok vs =>
      rw [← evalAll_length hvs] at hi
      exact execAll_application args vs stack hi

/-! ## Programs -/

/-- a program of an expression leaves its value -/
theorem run_ofExpr {lib : Library} {e : Expr} {p : Program} (h : Program.ofExpr lib e = .ok p) (args : List Value) :
    p.run args = e.eval lib args := by
  obtain ⟨is, his, h⟩ := bind_eq_ok_iff.1 h
  obtain rfl := Except.ok.inj h
  rw [Program.run, execAll_code lib args e is [] his]
  cases e.eval lib args <;> rfl

/-- a check takes the truth value of its comparison -/
theorem holds_ofComparison {lib : Library} {c : Comparison} {k : Check} (h : Check.ofComparison lib c = .ok k)
    (args : List Value) : k.holds args = c.eval lib args := by
  obtain ⟨left, hleft, h⟩ := bind_eq_ok_iff.1 h
  obtain ⟨right, hright, h⟩ := bind_eq_ok_iff.1 h
  obtain rfl := Except.ok.inj h
  simp only [Check.holds, Comparison.eval, run_ofExpr hleft, run_ofExpr hright]

theorem allHold_ofGuard {lib : Library} {cs : List Comparison} {ks : List Check}
    (h : List.Forall₂ (fun c k => Check.ofComparison lib c = .ok k) cs ks) (args : List Value) :
    Check.allHold args ks = evalGuard lib args cs := by
  induction h with
  | nil => rfl
  | cons hc _ ih => simp only [Check.allHold, evalGuard, holds_ofComparison hc, ih]

/-- branches decide as the clauses that they were made from -/
theorem evalFrom_ofClauses {lib : Library} {body : Expr} {fallback : Program} {cs : List Clause} {bs : List Branch}
    (hbody : Program.ofExpr lib body = .ok fallback)
    (h : List.Forall₂ (fun c b => Branch.ofClause lib c = .ok b) cs bs) (args : List Value) :
    Body.evalFrom fallback args bs = evalClauses lib args body cs := by
  induction h with
  | nil => exact run_ofExpr hbody args
  | cons hc _ ih =>
    obtain ⟨guard, hguard, hc⟩ := bind_eq_ok_iff.1 hc
    obtain ⟨value, hvalue, hc⟩ := bind_eq_ok_iff.1 hc
    obtain rfl := Except.ok.inj hc
    simp only [Body.evalFrom, evalClauses, allHold_ofGuard (mapM_eq_ok_iff.1 hguard), run_ofExpr hvalue, ih]

/-! ## Procedures -/

/-- **Refinement.** A procedure at any arguments gives what the evaluation of its definition gives, values and faults
alike. -/
theorem call_eq_eval {lib : Library} {d : Declaration} {p : Procedure} (h : Procedure.ofDeclaration lib d = .ok p)
    (args : List Value) : p.call args = d.eval lib args := by
  obtain ⟨body, hbody, h⟩ := bind_eq_ok_iff.1 h
  obtain rfl := Except.ok.inj h
  obtain ⟨branches, hbranches, hbody⟩ := bind_eq_ok_iff.1 hbody
  obtain ⟨fallback, hfallback, hbody⟩ := bind_eq_ok_iff.1 hbody
  obtain rfl := Except.ok.inj hbody
  have hclauses := evalFrom_ofClauses hfallback (mapM_eq_ok_iff.1 hbranches) args
  simp only [Procedure.call, Procedure.arity, Body.eval, Declaration.eval, hclauses]

/-- the absolute value by cases: `abs(x) = -x if x < 0; x` -/
def absByCases : Declaration where
  name := "abs"
  params := [⟨"x", 0⟩]
  body := .param "x" 0
  clauses := [⟨[⟨.lt, .param "x" 0, .number 0⟩], .unary "neg" (.param "x" 0)⟩]

/-- the library with nothing but the negative sign -/
def signLibrary : Library := Library.empty.registerOperation (.unary "neg" fun z => -z)

theorem call_eq_eval_absByCases : ∃ p, Procedure.ofDeclaration signLibrary absByCases = .ok p ∧
    ∀ args, p.call args = absByCases.eval signLibrary args :=
  ⟨_, rfl, fun args => call_eq_eval rfl args⟩

end ComplexFormula

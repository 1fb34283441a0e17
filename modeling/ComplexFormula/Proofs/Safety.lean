/-
What can still go wrong once a formula has been built: the wrong number of arguments, and an operation that refuses its
operands. Nothing else does, in no program of the formula, since parameters are in range, every name has been found and
every operation was given an acceptable number of operands.

- `ValueOrDomain`: a value, or the refusal of an operation.
- `evaluates`: so ends every expression whose code exists and whose parameters are in range.
- `index_lt_of_isRead`: parameters are in range in a definition that was read.
- `call_safe`: **safety** of a formula that was built.
-/
import ComplexFormula.Formula
import ComplexFormula.Proofs.Definition.Reading
import ComplexFormula.Proofs.Evaluation

namespace ComplexFormula

variable {α β : Type}

/-! ## Values and refusals -/

/-- a value, or the refusal of an operation -/
def ValueOrDomain (x : Except Fault α) : Prop := (∃ a, x = .ok a) ∨ ∃ cause, x = .error (.domain cause)

theorem ValueOrDomain.ok (a : α) : ValueOrDomain (.ok a : Except Fault α) := .inl ⟨a, rfl⟩

theorem ValueOrDomain.bind {x : Except Fault α} {f : α → Except Fault β} (hx : ValueOrDomain x)
    (hf : ∀ a, x = .ok a → ValueOrDomain (f a)) : ValueOrDomain (x >>= f) := by
  rcases hx with ⟨a, rfl⟩ | ⟨cause, rfl⟩
  · exact hf a rfl
  · exact .inr ⟨cause, rfl⟩

theorem ValueOrDomain.map {x : Except Fault α} (hx : ValueOrDomain x) (f : α → β) : ValueOrDomain (x.map f) := by
  rcases hx with ⟨a, rfl⟩ | ⟨cause, rfl⟩
  · exact .ok (f a)
  · exact .inr ⟨cause, rfl⟩

theorem valueOrDomain_mapError (x : Except DomainFault α) : ValueOrDomain (x.mapError Fault.domain) := by
  cases x with
  | error cause => exact .inr ⟨cause, rfl⟩
  | ok a => exact .ok a

/-! ## Expressions -/

/-- an operation that was applied accepts the number of its operands -/
theorem evalApplication_safe {op? : Option Operation} {name : String} (operands : List Value) {i : Instr}
    (h : application op? name operands.length = .ok i) : ValueOrDomain (evalApplication op? name operands) := by
  obtain ⟨op, rfl, haccepts, -⟩ := application_eq_ok_iff.1 h
  have hcall : op.call operands = (op.body operands).mapError .domain := if_pos haccepts
  rw [evalApplication, hcall]
  exact (valueOrDomain_mapError _).map _

/-- all parameters of the expression have an argument -/
def InRange (arity : Nat) (e : Expr) : Prop := ∀ name index, .param name index ∈ e.nodes → index < arity

/-- the expression ends in a value or the refusal of an operation -/
def Evaluates (lib : Library) (args : List Value) (e : Expr) : Prop :=
  ∀ is, e.code lib = .ok is → InRange args.length e → ValueOrDomain (e.eval lib args)

theorem evalAll_safe {lib : Library} {args : List Value} {as : List Expr} (has : ∀ a ∈ as, Evaluates lib args a)
    {is : List Instr} (h : Expr.codeAll lib as = .ok is) (hrange : ∀ a ∈ as, InRange args.length a) :
    ValueOrDomain (Expr.evalAll lib args as) := by
  induction as generalizing is with
  | nil => exact .ok []
  | cons a as ih =>
    obtain ⟨js, hjs, h⟩ := bind_eq_ok_iff.1 h
    obtain ⟨ks, hks, h⟩ := bind_eq_ok_iff.1 h
    have ha := has a List.mem_cons_self js hjs (hrange a List.mem_cons_self)
    have hrest := ih (fun b hb => has b (List.mem_cons_of_mem a hb)) hks
      fun b hb => hrange b (List.mem_cons_of_mem a hb)
    exact ha.bind fun v _ => hrest.bind fun vs _ => .ok (v :: vs)

/-- **Every expression evaluates** to a value or to the refusal of an operation, once its code exists. -/
theorem evaluates (lib : Library) (args : List Value) (e : Expr) : Evaluates lib args e := by
  induction e using Expr.induct with
  | number x => exact fun _ _ _ => .ok _
  | param name index =>
    intro is _ hrange
    have hindex : index < args.length := hrange name index (List.mem_singleton_self _)
    rw [Expr.eval, List.getElem?_eq_getElem hindex]
    exact .ok _
  | constant name =>
    intro is h _
    rw [Expr.code] at h
    rw [Expr.eval]
    cases hz : lib.constant? name with
    | none => simp [hz] at h
    | some z => exact .ok _
  | unary op a ih =>
    intro is h hrange
    obtain ⟨js, hjs, h⟩ := bind_eq_ok_iff.1 h
    obtain ⟨i, hi, -⟩ := bind_eq_ok_iff.1 h
    have ha := ih js hjs fun name index hn => hrange name index (List.mem_append_left _ hn)
    exact ha.bind fun v _ => evalApplication_safe [v] hi
  | binary op a b iha ihb =>
    intro is h hrange
    obtain ⟨js, hjs, h⟩ := bind_eq_ok_iff.1 h
    obtain ⟨ks, hks, h⟩ := bind_eq_ok_iff.1 h
    obtain ⟨i, hi, -⟩ := bind_eq_ok_iff.1 h
    have ha := iha js hjs fun name index hn => hrange name index (by simp [Expr.nodes, hn])
    have hb := ihb ks hks fun name index hn => hrange name index (by simp [Expr.nodes, hn])
    exact ha.bind fun v _ => hb.bind fun w _ => evalApplication_safe [v, w] hi
  | call name as ih =>
    intro is h hrange
    obtain ⟨js, hjs, h⟩ := bind_eq_ok_iff.1 h
    obtain ⟨i, hi, -⟩ := bind_eq_ok_iff.1 h
    have hargs : ∀ a ∈ as, InRange args.length a := by
      intro a ha pname index hn
      refine hrange pname index (List.mem_append_left _ ?_)
      rw [Expr.nodesAll_eq_flatMap]
      exact List.mem_flatMap.2 ⟨a, ha, hn⟩
    refine (evalAll_safe ih hjs hargs).bind fun vs hvs => evalApplication_safe vs (i := i) ?_
    rwa [evalAll_length hvs]

/-! ## Programs -/

/-- both programs of a check -/
def Check.programs (c : Check) : List Program := [c.left, c.right]

/-- the programs of the guard from left to right, then that of the value -/
def Branch.programs (b : Branch) : List Program := b.guard.flatMap Check.programs ++ [b.value]

/-- all programs of a body in order -/
def Body.programs (b : Body) : List Program := b.branches.flatMap Branch.programs ++ [b.fallback]

/-- every program of a check, branch or body was made from an expression of the definition -/
theorem exists_of_mem_programs {lib : Library} {d : Declaration} {b : Body} (h : Body.ofDeclaration lib d = .ok b)
    {p : Program} (hp : p ∈ b.programs) : ∃ e ∈ d.exprs, Program.ofExpr lib e = .ok p := by
  obtain ⟨branches, hbranches, h⟩ := bind_eq_ok_iff.1 h
  obtain ⟨fallback, hfallback, h⟩ := bind_eq_ok_iff.1 h
  obtain rfl := Except.ok.inj h
  rcases List.mem_append.1 hp with hp | hp
  · obtain ⟨branch, hbranch, hp⟩ := List.mem_flatMap.1 hp
    obtain ⟨c, hc, hbranch⟩ := exists_of_mapM_eq_ok hbranches hbranch
    have hexprs : ∀ e ∈ c.exprs, e ∈ d.exprs := fun e he =>
      List.mem_append_left _ (List.mem_flatMap.2 ⟨c, hc, he⟩)
    obtain ⟨guard, hguard, hbranch⟩ := bind_eq_ok_iff.1 hbranch
    obtain ⟨value, hvalue, hbranch⟩ := bind_eq_ok_iff.1 hbranch
    obtain rfl := Except.ok.inj hbranch
    rcases List.mem_append.1 hp with hp | hp
    · obtain ⟨k, hk, hp⟩ := List.mem_flatMap.1 hp
      obtain ⟨comparison, hcomparison, hk⟩ := exists_of_mapM_eq_ok hguard hk
      have hsides : ∀ e ∈ comparison.exprs, e ∈ d.exprs := fun e he =>
        hexprs e (List.mem_append_left _ (List.mem_flatMap.2 ⟨comparison, hcomparison, he⟩))
      obtain ⟨left, hleft, hk⟩ := bind_eq_ok_iff.1 hk
      obtain ⟨right, hright, hk⟩ := bind_eq_ok_iff.1 hk
      obtain rfl := Except.ok.inj hk
      simp only [Check.programs, List.mem_cons, List.not_mem_nil, or_false] at hp
      rcases hp with rfl | rfl
      · exact ⟨_, hsides _ (by simp [Comparison.exprs]), hleft⟩
      · exact ⟨_, hsides _ (by simp [Comparison.exprs]), hright⟩
    · rw [List.mem_singleton.1 hp]
      exact ⟨c.value, hexprs _ (by simp [Clause.exprs]), hvalue⟩
  · rw [List.mem_singleton.1 hp]
    exact ⟨d.body, by simp [Declaration.exprs], hfallback⟩

section

variable {args : List Value}

theorem holds_safe {c : Check} (h : ∀ p ∈ c.programs, ValueOrDomain (p.run args)) : ValueOrDomain (c.holds args) := by
  have hleft := h c.left (by simp [Check.programs])
  have hright := h c.right (by simp [Check.programs])
  exact hleft.bind fun v _ => hright.bind fun w _ => valueOrDomain_mapError _

theorem allHold_safe {cs : List Check} (h : ∀ p ∈ cs.flatMap Check.programs, ValueOrDomain (p.run args)) :
    ValueOrDomain (Check.allHold args cs) := by
  induction cs with
  | nil => exact .ok true
  | cons c cs ih =>
    have hfirst := holds_safe fun p hp => h p (List.mem_append_left _ hp)
    apply hfirst.bind
    intro holds _
    cases holds with
    | false => exact .ok false
    | true => exact ih fun p hp => h p (List.mem_append_right _ hp)

theorem evalFrom_safe {fallback : Program} {bs : List Branch}
    (h : ∀ p ∈ bs.flatMap Branch.programs ++ [fallback], ValueOrDomain (p.run args)) :
    ValueOrDomain (Body.evalFrom fallback args bs) := by
  induction bs with
  | nil => exact h fallback (List.mem_singleton_self _)
  | cons b bs ih =>
    rw [List.flatMap_cons, List.append_assoc] at h
    have hguard : ValueOrDomain (Check.allHold args b.guard) :=
      allHold_safe fun p hp => h p (List.mem_append_left _ (List.mem_append_left _ hp))
    apply hguard.bind
    intro holds _
    cases holds with
    | false => exact ih fun p hp => h p (List.mem_append_right _ hp)
    | true => exact h b.value (List.mem_append_left _ (by simp [Branch.programs]))

end

/-! ## Definitions -/

/-- the parameters of a definition that was read are in range -/
theorem index_lt_of_isRead {tokens : List Token} {d : Declaration} (h : d.IsRead tokens) {e : Expr}
    (he : e ∈ d.exprs) : InRange d.params.length e := by
  intro name index hn
  obtain ⟨-, hfind⟩ := h.written he _ hn
  have hmem := List.mem_of_find?_eq_some hfind
  rw [h.params] at hmem ⊢
  exact (List.getElem?_eq_some_iff.1 (getElem?_of_mem_numbered hmem)).1

theorem mem_exprs_of_applyTo {policy : ClausePolicy} {d : Declaration} {e : Expr} (h : e ∈ (policy.applyTo d).exprs) :
    e ∈ d.exprs := by
  cases policy with
  | keep => exact h
  | strip =>
    rw [List.mem_singleton.1 h]
    exact List.mem_append_right _ (List.mem_singleton_self _)

theorem params_applyTo (policy : ClausePolicy) (d : Declaration) : (policy.applyTo d).params = d.params := by
  cases policy <;> rfl

/-- every program of a formula ends in a value or the refusal of an operation -/
theorem run_safe {r : Recipe} {f : Formula} (h : r.build = .ok f) {args : List Value} (hargs : args.length = f.arity) :
    ∀ p ∈ f.procedure.body.programs, ValueOrDomain (p.run args) := by
  intro p hp
  obtain ⟨d, hd, h⟩ := bind_eq_ok_iff.1 h
  obtain ⟨tokens, -, hd⟩ := bind_eq_ok_iff.1 hd
  obtain ⟨procedure, hprocedure, h⟩ := bind_eq_ok_iff.1 h
  obtain rfl := Except.ok.inj h
  obtain ⟨body, hbody, hprocedure⟩ := bind_eq_ok_iff.1 hprocedure
  obtain rfl := Except.ok.inj hprocedure
  obtain ⟨e, he, hofExpr⟩ := exists_of_mem_programs hbody hp
  obtain ⟨is, hcode, -⟩ := bind_eq_ok_iff.1 hofExpr
  have hrange := index_lt_of_isRead (Declaration.isRead_of_ofTokens hd) (mem_exprs_of_applyTo he)
  rw [run_ofExpr hofExpr]
  refine evaluates r.library args e is hcode ?_
  rwa [hargs, Formula.arity, Procedure.arity, params_applyTo]

/-! ## Formulas -/

/-- **Safety.** A formula that was built fails for the wrong number of arguments, and then alone with that fault; for
the right number it gives a value or the refusal of an operation, and so does each of its programs. -/
theorem call_safe {r : Recipe} {f : Formula} (h : r.build = .ok f) (args : List Value) :
    (f.call args = .error (.argumentCount f.arity args.length) ↔ args.length ≠ f.arity) ∧
      (args.length = f.arity → ValueOrDomain (f.call args) ∧
        ∀ p ∈ f.procedure.body.programs, ValueOrDomain (p.run args)) := by
  have hright : args.length = f.arity → ValueOrDomain (f.call args) := by
    intro hargs
    have hwidened : (args.map fun v => Value.complex v.toComplex).length = f.arity := by rwa [List.length_map]
    have heval := evalFrom_safe (run_safe h hwidened)
    have hcall : f.procedure.call (args.map fun v => .complex v.toComplex) =
        f.procedure.body.eval (args.map fun v => .complex v.toComplex) := if_pos hwidened
    unfold Formula.call
    rw [hcall]
    exact heval.map _
  refine ⟨⟨fun hcall hargs => ?_, fun hargs => ?_⟩, fun hargs => ⟨hright hargs, run_safe h hargs⟩⟩
  · obtain ⟨z, hz⟩ | ⟨cause, hcause⟩ := hright hargs
    · cases hcall.symm.trans hz
    · cases hcall.symm.trans hcause
  · have hcall : f.procedure.call (args.map fun v => .complex v.toComplex) =
        .error (.argumentCount f.arity args.length) := by
      rw [Procedure.call, List.length_map]
      exact if_neg hargs
    rw [Formula.call, hcall]
    rfl

/-- a formula with a guarded clause, built without any library -/
def stepRecipe : Recipe := { source := "f(x, y) = y if x > y; x", library := .empty, clauses := .keep }

theorem call_safe_step : ∃ f, stepRecipe.build = .ok f ∧ f.arity = 2 ∧
    ∀ args, (f.call args = .error (.argumentCount f.arity args.length) ↔ args.length ≠ f.arity) ∧
      (args.length = f.arity → ValueOrDomain (f.call args) ∧
        ∀ p ∈ f.procedure.body.programs, ValueOrDomain (p.run args)) := by
  have hbuild : stepRecipe.build.map Formula.arity = .ok 2 := by decide +kernel
  obtain ⟨f, hf, harity⟩ := map_eq_ok_iff.1 hbuild
  exact ⟨f, hf, harity, call_safe hf⟩

end ComplexFormula

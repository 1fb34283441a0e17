/-
How an argument is represented does not matter. A real number can be passed as such or as a complex number without an
imaginary part; two runs of a procedure on arguments that denote the same complex numbers give values that do, or the
same fault, and decide every guard alike. The stacks of the two runs hold different forms of the same numbers, and this
is what every instruction preserves, since an operation of the library sees a number in no other way than widened.

- `Value.Same`: the values denote the same complex number, bit by bit.
- `Operation.IsLifted`, `Library.IsLifted`: bodies that are lifted functions of complex or of real numbers.
- `exec_alike`, `execAll_alike`: one instruction and a whole program, on stacks of the same numbers.
- `call_representation`: **independence of the representation** for procedures and formulas.
-/
import ComplexFormula.Proofs.Safety

namespace ComplexFormula

/-! ## Values -/

/-- the values denote the same complex number, bit by bit: the two zeros differ, and so do the NaNs -/
def Value.Same (v w : Value) : Prop := v.toComplex = w.toComplex

namespace Value

variable {v v' w w' : Value} {vs ws : List Value}

/-- in either form a value is real if its imaginary part is a zero -/
theorem isReal_eq (v : Value) : v.isReal = (v.toComplex.im == 0) := by
  cases v with
  | real x => rfl
  | complex z => rfl

theorem Same.isReal_eq (h : v.Same w) : v.isReal = w.isReal := by
  rw [v.isReal_eq, w.isReal_eq, h]

/-- a comparison looks at nothing but the numbers -/
theorem Same.compare_eq (hv : v.Same v') (hw : w.Same w') (r : Relation) : r.compare v w = r.compare v' w' := by
  have hreal : ∀ holds, compareReal holds v w = compareReal holds v' w' := by
    intro holds
    rw [compareReal, compareReal, hv.isReal_eq, hw.isReal_eq, hv, hw]
  cases r with
  | eq | ne => rw [Relation.compare, Relation.compare, hv, hw]
  | lt | le | gt | ge => simp only [Relation.compare, hreal]

theorem map_toComplex_eq (h : List.Forall₂ Same vs ws) : vs.map toComplex = ws.map toComplex := by
  induction h with
  | nil => rfl
  | cons hv _ ih => rw [List.map_cons, List.map_cons, hv, ih]

end Value

/-! ## Operations -/

/-- the body is lifted from a function of complex numbers or from one of real numbers -/
def Operation.IsLifted (p : Operation) : Prop := (∃ f, p.body = onComplex f) ∨ ∃ name f, p.body = onReal name f

theorem isLifted_onComplex (name : String) (arity : Arity) (f : List Complex → Complex) :
    (⟨name, arity, onComplex f⟩ : Operation).IsLifted := .inl ⟨f, rfl⟩

theorem isLifted_onReal (name : String) (arity : Arity) (f : List Binary64 → Except DomainFault Binary64) :
    (⟨name, arity, onReal name f⟩ : Operation).IsLifted := .inr ⟨name, f, rfl⟩

variable {vs ws args args' stack stack' : List Value}

theorem mapM_realOperand_eq (name : String) (h : List.Forall₂ Value.Same vs ws) :
    vs.mapM (realOperand name) = ws.mapM (realOperand name) := by
  induction h with
  | nil => rfl
  | @cons v w vs ws hv _ ih =>
    have hfirst : realOperand name v = realOperand name w := by rw [realOperand, realOperand, hv]
    rw [List.mapM_cons, List.mapM_cons, hfirst, ih]

/-- a lifted operation sees its operands widened -/
theorem Operation.IsLifted.call_eq {p : Operation} (hp : p.IsLifted) (h : List.Forall₂ Value.Same vs ws) :
    p.call vs = p.call ws := by
  have hbody : p.body vs = p.body ws := by
    obtain ⟨f, hf⟩ | ⟨name, f, hf⟩ := hp
    · rw [hf, onComplex, onComplex, Value.map_toComplex_eq h]
    · rw [hf, onReal, onReal, mapM_realOperand_eq name h]
  rw [Operation.call, Operation.call, hbody, h.length_eq]

/-! ## Instructions -/

/-- entries taken off related stacks are related, and so is what remains -/
theorem popOnto_rel {α : Type} {r : α → α → Prop} {taken taken' stack stack' : List α} (n : Nat)
    (htaken : List.Forall₂ r taken taken') (hstack : List.Forall₂ r stack stack') :
    Option.Rel (fun p p' => List.Forall₂ r p.1 p'.1 ∧ List.Forall₂ r p.2 p'.2) (Stack.popOnto n taken stack)
      (Stack.popOnto n taken' stack') := by
  induction n generalizing taken taken' stack stack' with
  | zero => exact .some ⟨htaken, hstack⟩
  | succ n ih =>
    cases hstack with
    | nil => exact .none
    | cons htop hrest => exact ih (.cons htop htaken) hrest

theorem getElem?_rel {α : Type} {r : α → α → Prop} {as bs : List α} (h : List.Forall₂ r as bs) (n : Nat) :
    Option.Rel r as[n]? bs[n]? := by
  induction h generalizing n with
  | nil => exact .none
  | cons hab _ ih =>
    cases n with
    | zero => exact .some hab
    | succ n => exact ih n

/-- an applied operation is lifted -/
def Instr.IsLifted : Instr → Prop
  | .apply op _ => op.IsLifted
  | _ => True

/-- **One instruction** on stacks of the same numbers leaves stacks of the same numbers, or the same fault. -/
theorem exec_alike {i : Instr} (hi : i.IsLifted) (hargs : List.Forall₂ Value.Same args args')
    (hstack : List.Forall₂ Value.Same stack stack') :
    Alike Eq (List.Forall₂ Value.Same) (i.exec args stack) (i.exec args' stack') := by
  cases i with
  | push v => exact .ok (.cons rfl hstack)
  | load index =>
    have hget := getElem?_rel hargs index
    simp only [Instr.exec, hargs.length_eq]
    generalize args[index]? = v?, args'[index]? = v'? at hget ⊢
    cases hget with
    | some hv => exact .ok (.cons hv hstack)
    | none => exact .error rfl
  | apply op argc =>
    have hpop := popOnto_rel argc .nil hstack
    simp only [Instr.exec, Stack.popMany?, hstack.length_eq]
    generalize Stack.popOnto argc [] stack = popped, Stack.popOnto argc [] stack' = popped' at hpop ⊢
    cases hpop with
    | none => exact .error rfl
    | some h =>
      simp only [hi.call_eq h.1]
      cases op.call _ with
      | error fault => exact .error rfl
      | ok z => exact .ok (.cons rfl h.2)

/-- **A whole program** does so as well. -/
theorem execAll_alike {is : List Instr} (his : ∀ i ∈ is, i.IsLifted) (hargs : List.Forall₂ Value.Same args args')
    (hstack : List.Forall₂ Value.Same stack stack') :
    Alike Eq (List.Forall₂ Value.Same) (Instr.execAll args is stack) (Instr.execAll args' is stack') := by
  induction is generalizing stack stack' with
  | nil => exact .ok hstack
  | cons i is ih =>
    have hfirst := exec_alike (his i List.mem_cons_self) hargs hstack
    rw [Instr.execAll, Instr.execAll]
    obtain ⟨next, next', hnext, hnext', h⟩ | ⟨fault, fault', hfault, hfault', h⟩ := hfirst.exists_ok_or_error
    · rw [hnext, hnext']
      exact ih (fun j hj => his j (List.mem_cons_of_mem i hj)) h
    · rw [hfault, hfault']
      exact .error h

/-! ## Programs -/

/-- every operation that the program applies is lifted -/
def Program.IsLifted (p : Program) : Prop := ∀ i ∈ p.instrs, i.IsLifted

theorem run_alike {p : Program} (hp : p.IsLifted) (hargs : List.Forall₂ Value.Same args args') :
    Alike Eq Value.Same (p.run args) (p.run args') := by
  rw [Program.run, Program.run]
  obtain ⟨last, last', hlast, hlast', h⟩ | ⟨fault, fault', hfault, hfault', h⟩ :=
    (execAll_alike hp hargs .nil).exists_ok_or_error
  · rw [hlast, hlast']
    cases h with
    | nil => exact .error rfl
    | cons hv _ => exact .ok hv
  · rw [hfault, hfault']
    exact .error h

theorem holds_eq {c : Check} (hc : ∀ p ∈ c.programs, p.IsLifted) (hargs : List.Forall₂ Value.Same args args') :
    c.holds args = c.holds args' := by
  have hleft := run_alike (hc c.left (by simp [Check.programs])) hargs
  have hright := run_alike (hc c.right (by simp [Check.programs])) hargs
  rw [← alike_eq_iff, Check.holds, Check.holds]
  refine hleft.bind fun v v' hv => hright.bind fun w w' hw => ?_
  rw [alike_eq_iff, hv.compare_eq hw]

theorem allHold_eq {cs : List Check} (hcs : ∀ p ∈ cs.flatMap Check.programs, p.IsLifted)
    (hargs : List.Forall₂ Value.Same args args') : Check.allHold args cs = Check.allHold args' cs := by
  induction cs with
  | nil => rfl
  | cons c cs ih =>
    have hfirst := holds_eq (fun p hp => hcs p (List.mem_append_left _ hp)) hargs
    have hrest := ih fun p hp => hcs p (List.mem_append_right _ hp)
    rw [Check.allHold, Check.allHold, hfirst, hrest]

theorem evalFrom_alike {fallback : Program} {bs : List Branch}
    (h : ∀ p ∈ bs.flatMap Branch.programs ++ [fallback], p.IsLifted) (hargs : List.Forall₂ Value.Same args args') :
    Alike Eq Value.Same (Body.evalFrom fallback args bs) (Body.evalFrom fallback args' bs) := by
  induction bs with
  | nil => exact run_alike (h fallback (List.mem_singleton_self _)) hargs
  | cons b bs ih =>
    rw [List.flatMap_cons, List.append_assoc] at h
    have hguard := allHold_eq (fun p hp => h p (List.mem_append_left _ (List.mem_append_left _ hp))) hargs
    have hvalue := run_alike (h b.value (List.mem_append_left _ (by simp [Branch.programs]))) hargs
    have hrest := ih fun p hp => h p (List.mem_append_right _ hp)
    rw [Body.evalFrom, Body.evalFrom, hguard]
    cases Check.allHold args' b.guard with
    | error fault => exact .error rfl
    | ok holds =>
      cases holds with
      | false => exact hrest
      | true => exact hvalue

/-! ## Libraries -/

/-- every operation and every function of the library is lifted -/
structure Library.IsLifted (lib : Library) : Prop where
  operation : ∀ name op, lib.operation? name = some op → op.IsLifted
  function : ∀ name op, lib.function? name = some op → op.IsLifted

namespace Library

variable {lib : Library}

theorem isLifted_empty : empty.IsLifted := ⟨fun _ _ h => (by cases h), fun _ _ h => (by cases h)⟩

theorem isLifted_of_get?_insert {t : Table Operation} (ht : ∀ name op, t.get? name = some op → op.IsLifted)
    {p : Operation} (hp : p.IsLifted) :
    ∀ name op, (t.insert p.name p).get? name = some op → op.IsLifted := by
  intro name op h
  rw [Table.get?_insert] at h
  split at h
  · exact Option.some.inj h ▸ hp
  · exact ht name op h

theorem IsLifted.registerOperation (h : lib.IsLifted) {p : Operation} (hp : p.IsLifted) :
    (lib.registerOperation p).IsLifted := ⟨isLifted_of_get?_insert h.operation hp, h.function⟩

theorem IsLifted.registerFunction (h : lib.IsLifted) {p : Operation} (hp : p.IsLifted) :
    (lib.registerFunction p).IsLifted := ⟨h.operation, isLifted_of_get?_insert h.function hp⟩

theorem IsLifted.registerConstant (h : lib.IsLifted) (name : String) (z : Complex) :
    (lib.registerConstant name z).IsLifted := ⟨h.operation, h.function⟩

/-- entries registered one after the other -/
theorem IsLifted.foldl {α : Type} {f : Library → α → Library} {as : List α} (h : lib.IsLifted)
    (hf : ∀ a ∈ as, ∀ lib : Library, lib.IsLifted → (f lib a).IsLifted) : (as.foldl f lib).IsLifted := by
  induction as generalizing lib with
  | nil => exact h
  | cons a as ih =>
    exact ih (hf a List.mem_cons_self lib h) fun b hb => hf b (List.mem_cons_of_mem a hb)

theorem isLifted_core : core.IsLifted := by
  have harithmetic : ∀ p ∈ arithmeticEntries, p.IsLifted := by
    simp only [arithmeticEntries, List.forall_mem_cons, Operation.unary, Operation.binary, isLifted_onComplex,
      isLifted_onReal, List.not_mem_nil, false_implies, implies_true, and_true]
  refine IsLifted.foldl (IsLifted.foldl isLifted_empty fun p hp lib h => ?_) fun c _ lib h => ?_
  · exact h.registerOperation (harithmetic p hp)
  · exact h.registerConstant c.1 c.2

/-- the basic library is lifted -/
theorem isLifted_basic : basic.IsLifted := isLifted_core.registerOperation (isLifted_onComplex _ _ _)

/-- the extended library is lifted, whatever `random` yields -/
theorem isLifted_extended (entropy : UInt64) : (extended entropy).IsLifted := by
  have hfunctions : ∀ p ∈ functionEntries entropy, p.IsLifted := by
    simp only [functionEntries, absolute, List.forall_mem_cons, Operation.unary, Operation.binary, isLifted_onComplex,
      isLifted_onReal, List.not_mem_nil, false_implies, implies_true, and_true]
  exact isLifted_core.foldl fun p hp lib h => h.registerFunction (hfunctions p hp)

theorem IsLifted.resolve (h : lib.IsLifted) {name : String} {op : Operation} (hop : lib.resolve? name = some op) :
    op.IsLifted := by
  rw [resolve?, Option.or_eq_some_iff] at hop
  rcases hop with hop | ⟨-, hop⟩
  · exact h.operation name op hop
  · exact h.function name op hop

end Library

/-! ## Compiled programs -/

section

variable {lib : Library}

theorem isLifted_application {op? : Option Operation} {name : String} {argc : Nat} {i : Instr}
    (hop : ∀ op, op? = some op → op.IsLifted) (h : application op? name argc = .ok i) : i.IsLifted := by
  obtain ⟨op, hfound, -, rfl⟩ := application_eq_ok_iff.1 h
  exact hop op hfound

theorem isLifted_codeAll {as : List Expr} (has : ∀ a ∈ as, ∀ is, a.code lib = .ok is → ∀ i ∈ is, i.IsLifted)
    {is : List Instr} (h : Expr.codeAll lib as = .ok is) : ∀ i ∈ is, i.IsLifted := by
  induction as generalizing is with
  | nil =>
    obtain rfl := Except.ok.inj h
    simp
  | cons a as ih =>
    obtain ⟨js, hjs, h⟩ := bind_eq_ok_iff.1 h
    obtain ⟨ks, hks, h⟩ := bind_eq_ok_iff.1 h
    obtain rfl := Except.ok.inj h
    rw [List.forall_mem_append]
    exact ⟨has a List.mem_cons_self js hjs, ih (fun b hb => has b (List.mem_cons_of_mem a hb)) hks⟩

/-- the code of an expression applies operations of the library and no others -/
theorem isLifted_code (hlib : lib.IsLifted) (e : Expr) : ∀ is, e.code lib = .ok is → ∀ i ∈ is, i.IsLifted := by
  induction e using Expr.induct with
  | number x =>
    intro is h
    obtain rfl := Except.ok.inj h
    simp [Instr.IsLifted]
  | param name index =>
    intro is h
    obtain rfl := Except.ok.inj h
    simp [Instr.IsLifted]
  | constant name =>
    intro is h
    rw [Expr.code] at h
    split at h
    · obtain rfl := Except.ok.inj h
      simp [Instr.IsLifted]
    · cases h
  | unary op a ih =>
    intro is h
    obtain ⟨js, hjs, h⟩ := bind_eq_ok_iff.1 h
    obtain ⟨i, hi, h⟩ := bind_eq_ok_iff.1 h
    obtain rfl := Except.ok.inj h
    rw [List.forall_mem_append, List.forall_mem_singleton]
    exact ⟨ih js hjs, isLifted_application (fun _ => hlib.resolve) hi⟩
  | binary op a b iha ihb =>
    intro is h
    obtain ⟨js, hjs, h⟩ := bind_eq_ok_iff.1 h
    obtain ⟨ks, hks, h⟩ := bind_eq_ok_iff.1 h
    obtain ⟨i, hi, h⟩ := bind_eq_ok_iff.1 h
    obtain rfl := Except.ok.inj h
    rw [List.forall_mem_append, List.forall_mem_append, List.forall_mem_singleton]
    exact ⟨⟨iha js hjs, ihb ks hks⟩, isLifted_application (fun _ => hlib.resolve) hi⟩
  | call name as ih =>
    intro is h
    obtain ⟨js, hjs, h⟩ := bind_eq_ok_iff.1 h
    obtain ⟨i, hi, h⟩ := bind_eq_ok_iff.1 h
    obtain rfl := Except.ok.inj h
    rw [List.forall_mem_append, List.forall_mem_singleton]
    exact ⟨isLifted_codeAll ih hjs, isLifted_application (hlib.function name) hi⟩

/-- every program of a procedure over a lifted library is lifted -/
theorem isLifted_of_mem_programs (hlib : lib.IsLifted) {d : Declaration} {b : Body}
    (h : Body.ofDeclaration lib d = .ok b) {p : Program} (hp : p ∈ b.programs) : p.IsLifted := by
  obtain ⟨e, -, he⟩ := exists_of_mem_programs h hp
  obtain ⟨is, his, he⟩ := bind_eq_ok_iff.1 he
  obtain rfl := Except.ok.inj he
  exact isLifted_code hlib e is his

end

/-! ## Procedures and formulas -/

theorem map_toComplex_eq_of_alike {x y : Except Fault Value} (h : Alike Eq Value.Same x y) :
    x.map Value.toComplex = y.map Value.toComplex := by
  cases h with
  | ok h => exact congrArg Except.ok h
  | error h => exact congrArg Except.error h

/-- one run of a procedure on each of two lists of the same numbers -/
theorem call_alike {p : Procedure} (hp : ∀ q ∈ p.body.programs, q.IsLifted)
    (hargs : List.Forall₂ Value.Same args args') : Alike Eq Value.Same (p.call args) (p.call args') := by
  rw [Procedure.call, Procedure.call, hargs.length_eq]
  split
  · exact evalFrom_alike hp hargs
  · exact .error rfl

theorem forall₂_widened (vs : List Value) : List.Forall₂ Value.Same (vs.map fun v => .complex v.toComplex) vs := by
  rw [List.forall₂_map_left_iff]
  exact List.forall₂_same.2 fun _ _ => rfl

/-- a formula gives what its procedure gives -/
theorem formula_call_eq {p : Procedure} (hp : ∀ q ∈ p.body.programs, q.IsLifted) (args : List Value) :
    (Formula.mk p).call args = (p.call args).map Value.toComplex :=
  map_toComplex_eq_of_alike (call_alike hp (forall₂_widened args))

/-- a formula sees the arguments as complex numbers and in no other way -/
theorem callWith_eq_of_toComplex {α β : Type} [ToValue α] [ToValue β] (f : Formula) {as : List α} {bs : List β}
    (h : as.map (fun a => (toValue a).toComplex) = bs.map fun b => (toValue b).toComplex) :
    f.callWith as = f.callWith bs := by
  have hwidened := congrArg (List.map Value.complex) h
  simp only [List.map_map] at hwidened
  simp only [Formula.callWith, Formula.call, List.map_map]
  exact congrArg (fun vs => (f.procedure.call vs).map Value.toComplex) hwidened

/-- **Independence of the representation**, for a library of lifted operations, as the two that come ready made are.
Arguments that denote the same complex numbers give the same value or fault, and decide every comparison of a guard
alike. So a formula, which widens its arguments first, gives what the procedure gives, and a real number can be passed
in any form. -/
theorem call_representation :
    (Library.basic.IsLifted ∧ ∀ entropy, (Library.extended entropy).IsLifted) ∧
      ∀ {lib : Library} {d : Declaration} {p : Procedure}, lib.IsLifted → Procedure.ofDeclaration lib d = .ok p →
        (∀ args args', List.Forall₂ Value.Same args args' →
          (p.call args).map Value.toComplex = (p.call args').map Value.toComplex ∧
            ∀ b ∈ p.body.branches, ∀ c ∈ b.guard, c.holds args = c.holds args') ∧
          (∀ args, (Formula.mk p).call args = (p.call args).map Value.toComplex) ∧
          ∀ xs : List Binary64,
            (Formula.mk p).callWith (xs.map Value.real) = (Formula.mk p).callWith xs ∧
              (Formula.mk p).callWith (xs.map fun x => (x, (0 : Binary64))) = (Formula.mk p).callWith xs ∧
              (Formula.mk p).callWith (xs.map Complex.ofReal) = (Formula.mk p).callWith xs := by
  refine ⟨⟨Library.isLifted_basic, Library.isLifted_extended⟩, fun {lib d p} hlib h => ?_⟩
  obtain ⟨body, hbody, h⟩ := bind_eq_ok_iff.1 h
  obtain rfl := Except.ok.inj h
  have hprograms : ∀ q ∈ body.programs, q.IsLifted := fun q hq => isLifted_of_mem_programs hlib hbody hq
  refine ⟨?_, formula_call_eq hprograms, ?_⟩
  · intro args args' hargs
    refine ⟨map_toComplex_eq_of_alike (call_alike hprograms hargs), ?_⟩
    intro b hb c hc
    refine holds_eq (fun q hq => hprograms q ?_) hargs
    have hguard : q ∈ b.programs := List.mem_append_left _ (List.mem_flatMap.2 ⟨c, hc, hq⟩)
    exact List.mem_append_left _ (List.mem_flatMap.2 ⟨b, hb, hguard⟩)
  · intro xs
    refine ⟨?_, ?_, ?_⟩
    all_goals
      apply callWith_eq_of_toComplex
      rw [List.map_map]
      rfl

/-- the absolute value of minus two, once as a real and once as a complex number -/
theorem call_representation_absByCases : ∃ p, Procedure.ofDeclaration .basic absByCases = .ok p ∧
    (p.call [.real (-2)]).map Value.toComplex = (p.call [.complex ⟨-2, 0⟩]).map Value.toComplex := by
  have hok : (Procedure.ofDeclaration .basic absByCases).map Procedure.arity = .ok 1 := by decide +kernel
  obtain ⟨p, hp, -⟩ := map_eq_ok_iff.1 hok
  refine ⟨p, hp, ?_⟩
  have hargs : List.Forall₂ Value.Same [.real (-2)] [.complex ⟨-2, 0⟩] := .cons rfl .nil
  exact ((call_representation.2 Library.isLifted_basic hp).1 _ _ hargs).1

end ComplexFormula

/-
What a clause policy changes. The clauses are dropped or kept after the definition was read, so both policies fail
alike up to there. Behind that, a formula with its clauses has everything that the one without them has, and a name that
only a clause looks for is the one reason why it may not exist. The two formulas give the same wherever no clause
applies; a clause whose guard raises a fault is not passed over.

- `Branch.PassedOver`: a check of the guard fails and those in front of it hold.
- `evalFrom_append`: branches that are passed over leave no trace.
- `Formula.Strips`: a formula without clauses beside the same one with them.
- `build_strip`, `build_keep`: what the two policies build from the same definition.
- `build_policies`: **strip and keep** differ by the clauses alone.
-/
import ComplexFormula.Proofs.Representation
import ComplexFormula.Proofs.Resolution
import ComplexFormula.Proofs.Stages

namespace ComplexFormula

/-! ## Clauses that do not apply -/

section

variable {args : List Value}

/-- some check of the guard fails, and all those in front of it hold -/
def Branch.PassedOver (args : List Value) (b : Branch) : Prop :=
  ∃ before c after, b.guard = before ++ c :: after ∧ (∀ k ∈ before, k.holds args = .ok true) ∧
    c.holds args = .ok false

/-- a guard fails where its first check fails that does not hold -/
theorem allHold_eq_false_iff {cs : List Check} : Check.allHold args cs = .ok false ↔
    ∃ before c after, cs = before ++ c :: after ∧ (∀ k ∈ before, k.holds args = .ok true) ∧
      c.holds args = .ok false := by
  induction cs with
  | nil => simp [Check.allHold]
  | cons c cs ih =>
    rw [Check.allHold, bind_eq_ok_iff]
    constructor
    · rintro ⟨holds, hc, h⟩
      cases holds with
      | false => exact ⟨[], c, cs, rfl, List.forall_mem_nil _, hc⟩
      | true =>
        obtain ⟨before, d, after, rfl, hbefore, hd⟩ := ih.1 h
        exact ⟨c :: before, d, after, rfl, List.forall_mem_cons.2 ⟨hc, hbefore⟩, hd⟩
    · rintro ⟨before, d, after, hcs, hbefore, hd⟩
      cases before with
      | nil =>
        obtain ⟨rfl, rfl⟩ := List.cons.inj hcs
        exact ⟨false, hd, rfl⟩
      | cons b before =>
        obtain ⟨rfl, rfl⟩ := List.cons.inj hcs
        obtain ⟨hc, hbefore⟩ := List.forall_mem_cons.1 hbefore
        exact ⟨true, hc, ih.2 ⟨before, d, after, rfl, hbefore, hd⟩⟩

theorem Branch.passedOver_iff {b : Branch} : b.PassedOver args ↔ Check.allHold args b.guard = .ok false :=
  allHold_eq_false_iff.symm

/-- **Branches that are passed over** leave no trace. -/
theorem evalFrom_append {fallback : Program} {bs : List Branch} (h : ∀ b ∈ bs, b.PassedOver args)
    (rest : List Branch) : Body.evalFrom fallback args (bs ++ rest) = Body.evalFrom fallback args rest := by
  induction bs with
  | nil => rfl
  | cons b bs ih =>
    obtain ⟨hb, hbs⟩ := List.forall_mem_cons.1 h
    rw [List.cons_append, Body.evalFrom, Branch.passedOver_iff.1 hb]
    exact ih hbs

/-- a body whose branches are all passed over is its fallback -/
theorem eval_of_passedOver {b : Body} (h : ∀ branch ∈ b.branches, branch.PassedOver args) :
    b.eval args = b.fallback.run args := by
  have hfrom : Body.evalFrom b.fallback args (b.branches ++ []) = b.fallback.run args := evalFrom_append h []
  rwa [List.append_nil] at hfrom

/-- lifted branches are passed over for what the arguments denote, in whatever form they are passed -/
theorem Branch.PassedOver.of_same {args' : List Value} {b : Branch} (hb : ∀ p ∈ b.programs, p.IsLifted)
    (hargs : List.Forall₂ Value.Same args args') (h : b.PassedOver args') : b.PassedOver args := by
  have hguard : ∀ p ∈ b.guard.flatMap Check.programs, p.IsLifted := fun p hp => hb p (List.mem_append_left _ hp)
  rw [Branch.passedOver_iff] at h ⊢
  rw [allHold_eq hguard hargs, h]

end

/-! ## Faults of clauses -/

/-- the first clause that cannot be looked up has that fault, which is that of the first of its nodes that is refused -/
def Library.RefusesClause (lib : Library) (clauses : List Clause) (fault : Fault) : Prop :=
  ∃ before c after, clauses = before ++ c :: after ∧ (∀ b ∈ before, ∃ branch, Branch.ofClause lib b = .ok branch) ∧
    Branch.ofClause lib c = .error fault ∧ lib.RefusesFirst (c.exprs.flatMap Expr.nodes) fault

theorem refusesClause_of_mapM {lib : Library} {clauses : List Clause} {fault : Fault}
    (h : clauses.mapM (Branch.ofClause lib) = .error fault) :
    fault.OfLookup lib ∧ lib.RefusesClause clauses fault := by
  obtain ⟨before, c, after, hclauses, hbefore, hc⟩ := mapM_eq_error_iff.1 h
  have hfirst := (Library.Resolves.error_iff (Branch.ofClause_resolves c)).1 hc
  exact ⟨(ofClause_endsIn c).of_eq_error hc, before, c, after, hclauses, hbefore, hc, hfirst⟩

/-! ## Formulas -/

namespace Formula

/-- the first formula is the second one without its clauses -/
structure Strips (s k : Formula) : Prop where
  name : s.name = k.name
  params : s.procedure.declaration.params = k.procedure.declaration.params
  /-- the body as declared, and the program of it -/
  body : s.procedure.declaration.body = k.procedure.declaration.body
  fallback : s.procedure.body.fallback = k.procedure.body.fallback
  /-- there are no clauses, neither as declared nor as programs -/
  clauses : s.procedure.declaration.clauses = []
  branches : s.procedure.body.branches = []

/-- the arguments as the formula sees them -/
def widened (args : List Value) : List Value := args.map fun v => .complex v.toComplex

/-- a formula without branches is its fallback, and so is one whose branches are all passed over -/
theorem call_of_passedOver (f : Formula) {args : List Value} (hargs : args.length = f.arity)
    (h : ∀ b ∈ f.procedure.body.branches, b.PassedOver (widened args)) :
    f.call args = (f.procedure.body.fallback.run (widened args)).map Value.toComplex := by
  have hwidened : (widened args).length = f.procedure.arity := by rwa [widened, List.length_map]
  have hcall : f.procedure.call (widened args) = f.procedure.body.eval (widened args) := if_pos hwidened
  rw [← eval_of_passedOver h, ← hcall]
  rfl

/-- a wrong number of arguments is refused before anything else -/
theorem call_of_length_ne (f : Formula) {args : List Value} (hargs : args.length ≠ f.arity) :
    f.call args = .error (.argumentCount f.arity args.length) := by
  have hcall : f.procedure.call (widened args) = .error (.argumentCount f.arity args.length) := by
    rw [Procedure.call, widened, List.length_map]
    exact if_neg hargs
  exact congrArg (Except.map Value.toComplex) hcall

namespace Strips

variable {s k : Formula} {args : List Value}

theorem arity_eq (h : s.Strips k) : s.arity = k.arity := congrArg List.length h.params

/-- where no clause applies, the formulas give the same -/
theorem call_eq (h : s.Strips k) (hargs : args.length = s.arity)
    (hover : ∀ b ∈ k.procedure.body.branches, b.PassedOver (widened args)) : s.call args = k.call args := by
  have hnone : ∀ b ∈ s.procedure.body.branches, b.PassedOver (widened args) := by
    rw [h.branches]
    exact List.forall_mem_nil _
  rw [s.call_of_passedOver hargs hnone, k.call_of_passedOver (hargs.trans h.arity_eq) hover, h.fallback]

end Strips

end Formula

/-! ## Builds -/

namespace Recipe

/-- the recipe with another clause policy -/
def withPolicy (r : Recipe) (policy : ClausePolicy) : Recipe := { r with clauses := policy }

variable {r : Recipe} {d : Declaration}

/-- without its clauses, a definition is its body -/
theorem build_strip (h : r.declaration = .ok d) : (r.withPolicy .strip).build =
    (Program.ofExpr r.library d.body).map fun fallback => ⟨⟨d.withoutClauses, ⟨[], fallback⟩⟩⟩ := by
  have hd : (r.withPolicy .strip).declaration = .ok d := h
  rw [build, hd]
  simp only [ok_bind, ClausePolicy.applyTo, Procedure.ofDeclaration, Body.ofDeclaration, Declaration.withoutClauses,
    List.mapM_nil, pure_eq_ok, withPolicy]
  cases Program.ofExpr r.library d.body <;> rfl

/-- with its clauses, it is looked up clause by clause first -/
theorem build_keep (h : r.declaration = .ok d) : (r.withPolicy .keep).build =
    d.clauses.mapM (Branch.ofClause r.library) >>= fun branches =>
      (Program.ofExpr r.library d.body).map fun fallback => ⟨⟨d, ⟨branches, fallback⟩⟩⟩ := by
  have hd : (r.withPolicy .keep).declaration = .ok d := h
  rw [build, hd]
  simp only [ok_bind, ClausePolicy.applyTo, Procedure.ofDeclaration, Body.ofDeclaration, withPolicy]
  cases d.clauses.mapM (Branch.ofClause r.library) with
  | error fault => rfl
  | ok branches => cases Program.ofExpr r.library d.body <;> rfl

/-- where no definition is read, no policy builds anything -/
theorem build_of_declaration {fault : Fault} (h : r.declaration = .error fault) (policy : ClausePolicy) :
    (r.withPolicy policy).build = .error fault := by
  have hd : (r.withPolicy policy).declaration = .error fault := h
  rw [build, hd]
  rfl

/-- what a formula with clauses was made from -/
theorem exists_of_build_keep (h : r.declaration = .ok d) {k : Formula} (hk : (r.withPolicy .keep).build = .ok k) :
    ∃ branches fallback, d.clauses.mapM (Branch.ofClause r.library) = .ok branches ∧
      Program.ofExpr r.library d.body = .ok fallback ∧ k = ⟨⟨d, ⟨branches, fallback⟩⟩⟩ := by
  rw [build_keep h] at hk
  obtain ⟨branches, hbranches, hk⟩ := bind_eq_ok_iff.1 hk
  obtain ⟨fallback, hfallback, hk⟩ := map_eq_ok_iff.1 hk
  exact ⟨branches, fallback, hbranches, hfallback, hk.symm⟩

/-- a formula that is built with its clauses is built without them too -/
theorem exists_strips (h : r.declaration = .ok d) {k : Formula} (hk : (r.withPolicy .keep).build = .ok k) :
    ∃ s, (r.withPolicy .strip).build = .ok s ∧ s.Strips k := by
  obtain ⟨branches, fallback, -, hfallback, rfl⟩ := exists_of_build_keep h hk
  refine ⟨⟨⟨d.withoutClauses, ⟨[], fallback⟩⟩⟩, ?_, rfl, rfl, rfl, rfl, rfl, rfl⟩
  rw [build_strip h, hfallback]
  rfl

/-- in a library of lifted operations, every program of a formula with clauses is lifted -/
theorem isLifted_of_build_keep (h : r.declaration = .ok d) (hlib : r.library.IsLifted) {k : Formula}
    (hk : (r.withPolicy .keep).build = .ok k) : ∀ p ∈ k.procedure.body.programs, p.IsLifted := by
  obtain ⟨branches, fallback, hbranches, hfallback, rfl⟩ := exists_of_build_keep h hk
  have hbody : Body.ofDeclaration r.library d = .ok ⟨branches, fallback⟩ := by
    rw [Body.ofDeclaration, hbranches, hfallback]
    rfl
  exact fun p hp => isLifted_of_mem_programs hlib hbody hp

/-- if only the formula with clauses fails, one of the clauses is at fault -/
theorem refusesClause_of_build (h : r.declaration = .ok d) {s : Formula} {fault : Fault}
    (hs : (r.withPolicy .strip).build = .ok s) (hk : (r.withPolicy .keep).build = .error fault) :
    fault.OfLookup r.library ∧ r.library.RefusesClause d.clauses fault := by
  rw [build_strip h] at hs
  obtain ⟨fallback, hfallback, -⟩ := map_eq_ok_iff.1 hs
  rw [build_keep h, hfallback] at hk
  rcases bind_eq_error_iff.1 hk with hclauses | ⟨branches, -, hbody⟩
  · exact refusesClause_of_mapM hclauses
  · cases hbody

end Recipe

/-- **Strip and keep** differ by the clauses alone. Where the source is not read, both fail alike. Where it is, whatever
keep builds strip builds too, without the clauses and with everything else; if strip fails then so does keep, and if
keep alone fails then for the first name or operand count that is wrong in a clause. The formulas refuse the same wrong
numbers of arguments, and give the same where every clause has a comparison that is false behind comparisons that are
true; these are evaluated at the arguments as the formula sees them, and if the operations of the library are lifted, in
whatever form the arguments are passed. -/
theorem build_policies (r : Recipe) :
    (∀ fault, r.declaration = .error fault →
      (r.withPolicy .strip).build = .error fault ∧ (r.withPolicy .keep).build = .error fault) ∧
    ∀ d, r.declaration = .ok d →
      (∀ k, (r.withPolicy .keep).build = .ok k →
        List.Forall₂ (fun c b => Branch.ofClause r.library c = .ok b) d.clauses k.procedure.body.branches ∧
          ∃ s, (r.withPolicy .strip).build = .ok s ∧ s.Strips k) ∧
      (∀ fault, (r.withPolicy .strip).build = .error fault → ∃ fault', (r.withPolicy .keep).build = .error fault') ∧
      (∀ s fault, (r.withPolicy .strip).build = .ok s → (r.withPolicy .keep).build = .error fault →
        fault.OfLookup r.library ∧ r.library.RefusesClause d.clauses fault) ∧
      ∀ s k, (r.withPolicy .strip).build = .ok s → (r.withPolicy .keep).build = .ok k → ∀ args,
        (args.length ≠ d.params.length →
          s.call args = .error (.argumentCount d.params.length args.length) ∧
            k.call args = .error (.argumentCount d.params.length args.length)) ∧
        (args.length = d.params.length →
          ((∀ b ∈ k.procedure.body.branches, b.PassedOver (Formula.widened args)) → s.call args = k.call args) ∧
            (r.library.IsLifted → (∀ b ∈ k.procedure.body.branches, b.PassedOver args) →
              s.call args = k.call args)) := by
  refine ⟨fun fault h => ⟨r.build_of_declaration h _, r.build_of_declaration h _⟩, fun d h => ?_⟩
  refine ⟨fun k hk => ⟨?_, r.exists_strips h hk⟩, fun fault hs => ?_, fun s fault => r.refusesClause_of_build h, ?_⟩
  · obtain ⟨branches, fallback, hbranches, -, rfl⟩ := r.exists_of_build_keep h hk
    exact mapM_eq_ok_iff.1 hbranches
  · cases hk : (r.withPolicy .keep).build with
    | error fault' => exact ⟨fault', rfl⟩
    | ok k =>
      obtain ⟨s, hs', -⟩ := r.exists_strips h hk
      cases hs.symm.trans hs'
  · intro s k hs hk args
    obtain ⟨s', hs', hstrips⟩ := r.exists_strips h hk
    obtain rfl := Except.ok.inj (hs.symm.trans hs')
    have hprograms := fun hlib => r.isLifted_of_build_keep h hlib hk
    obtain ⟨branches, fallback, -, -, rfl⟩ := r.exists_of_build_keep h hk
    have harity : s.arity = d.params.length := hstrips.arity_eq
    rw [← harity]
    refine ⟨fun hargs => ⟨s.call_of_length_ne hargs, ?_⟩, fun hargs => ⟨hstrips.call_eq hargs, fun hlib hover => ?_⟩⟩
    · rw [hstrips.arity_eq] at hargs ⊢
      exact Formula.call_of_length_ne _ hargs
    · refine hstrips.call_eq hargs fun b hb => (hover b hb).of_same (fun p hp => ?_) (forall₂_widened args)
      exact hprograms hlib p (List.mem_append_left _ (List.mem_flatMap.2 ⟨b, hb, hp⟩))

/-- the clause and the body each have a name that the library does not hold -/
def absentRecipe : Recipe := { source := "f(x) = q if x > 0; z", library := .empty }

/-- the same with a body that can be looked up -/
def absentInClauseRecipe : Recipe := { source := "f(x) = q if x > 0; x", library := .empty }

/-- one guard is false at the arguments; elsewhere the clause alone is at fault, or it hides the fault of the body -/
theorem build_policies_step :
    (∃ s k, (stepRecipe.withPolicy .strip).build = .ok s ∧ (stepRecipe.withPolicy .keep).build = .ok k ∧ s.Strips k ∧
      s.call [.real 1, .real 2] = k.call [.real 1, .real 2] ∧ s.call [] = k.call []) ∧
    (∃ d, absentInClauseRecipe.declaration = .ok d ∧
      absentInClauseRecipe.library.RefusesClause d.clauses (.unknownIdentifier "q")) ∧
    (absentRecipe.withPolicy .strip).build = .error (.unknownIdentifier "z") ∧
      ∃ fault, (absentRecipe.withPolicy .keep).build = .error fault := by
  refine ⟨?_, ?_, ?_⟩
  · have hd : stepRecipe.declaration.map (·.params.length) = .ok 2 := by decide +kernel
    obtain ⟨d, hd, hparams⟩ := map_eq_ok_iff.1 hd
    have hk : (stepRecipe.withPolicy .keep).build.map (fun k => k.procedure.body.branches.map fun b =>
        Check.allHold (Formula.widened [.real 1, .real 2]) b.guard) = .ok [.ok false] := by decide +kernel
    obtain ⟨k, hk, hguards⟩ := map_eq_ok_iff.1 hk
    obtain ⟨hkeep, -, -, hcalls⟩ := (build_policies stepRecipe).2 d hd
    obtain ⟨-, s, hs, hstrips⟩ := hkeep k hk
    have hover : ∀ b ∈ k.procedure.body.branches, b.PassedOver (Formula.widened [.real 1, .real 2]) := by
      intro b hb
      have hguard := List.mem_map_of_mem (f := fun b : Branch =>
        Check.allHold (Formula.widened [.real 1, .real 2]) b.guard) hb
      rw [hguards, List.mem_singleton] at hguard
      exact Branch.passedOver_iff.2 hguard
    obtain ⟨hsame, -⟩ := (hcalls s k hs hk [.real 1, .real 2]).2 hparams.symm
    obtain ⟨hs', hk'⟩ := (hcalls s k hs hk []).1 (by simp [hparams])
    exact ⟨s, k, hs, hk, hstrips, hsame hover, hs'.trans hk'.symm⟩
  · have hd : absentInClauseRecipe.declaration.map (·.params.length) = .ok 1 := by decide +kernel
    obtain ⟨d, hd, -⟩ := map_eq_ok_iff.1 hd
    have hs : (absentInClauseRecipe.withPolicy .strip).build.map Formula.arity = .ok 1 := by decide +kernel
    obtain ⟨s, hs, -⟩ := map_eq_ok_iff.1 hs
    have hk : (absentInClauseRecipe.withPolicy .keep).build.map Formula.arity = .error (.unknownIdentifier "q") := by
      decide +kernel
    obtain ⟨-, -, hclause, -⟩ := (build_policies absentInClauseRecipe).2 d hd
    exact ⟨d, hd, (hclause s _ hs (map_eq_error_iff.1 hk)).2⟩
  · have hd : absentRecipe.declaration.map (·.params.length) = .ok 1 := by decide +kernel
    obtain ⟨d, hd, -⟩ := map_eq_ok_iff.1 hd
    have hs : (absentRecipe.withPolicy .strip).build.map Formula.arity = .error (.unknownIdentifier "z") := by
      decide +kernel
    have hs := map_eq_error_iff.1 hs
    obtain ⟨-, hfails, -, -⟩ := (build_policies absentRecipe).2 d hd
    exact ⟨hs, hfails _ hs⟩

end ComplexFormula

/-
The two ways to write a power. Where a library has `pow` as an operation and as a function of one signature, x^y and
pow(x, y) have the same instructions up to the table that the operation stands in. Definitions that differ in nothing
else have bodies that agree, and so the same values and faults; the extended library is of this kind.

- `Expr.powersAsCalls`, `Declaration.powersAsCalls`: every power as a call.
- `Library.SharesPower`: `pow` has one signature in both tables.
- `code_alike`, `ofDeclaration_alike`: the code of an expression and the procedure of a definition.
- `ofDeclaration_powers`: definitions that differ in how powers are written.
- `Library.shared_extended_iff`: `pow` is the one name of both an operation and a function of the extended library.
- `signatures_suffice`: **comparing by signature** is sound, in particular for the two ways to write a power.
-/
import ComplexFormula.Proofs.Printing.RoundTrip
import ComplexFormula.Proofs.Signatures

namespace ComplexFormula

/-! ## Powers as calls -/

namespace Expr

mutual

/-- every power is written as a call -/
def powersAsCalls : Expr → Expr
  | .number x => .number x
  | .param name index => .param name index
  | .constant name => .constant name
  | .unary op a => .unary op a.powersAsCalls
  | .binary op a b =>
    if op = "pow" then .call op [a.powersAsCalls, b.powersAsCalls] else .binary op a.powersAsCalls b.powersAsCalls
  | .call name args => .call name (powersAsCallsAll args)

/-- several expressions -/
def powersAsCallsAll : List Expr → List Expr
  | [] => []
  | a :: as => a.powersAsCalls :: powersAsCallsAll as

end

theorem powersAsCallsAll_length (as : List Expr) : (powersAsCallsAll as).length = as.length := by
  induction as with
  | nil => rfl
  | cons a as ih => rw [powersAsCallsAll, List.length_cons, ih, List.length_cons]

end Expr

def Comparison.powersAsCalls (c : Comparison) : Comparison :=
  ⟨c.relation, c.left.powersAsCalls, c.right.powersAsCalls⟩

def Clause.powersAsCalls (c : Clause) : Clause := ⟨c.guard.map Comparison.powersAsCalls, c.value.powersAsCalls⟩

def Declaration.powersAsCalls (d : Declaration) : Declaration :=
  { d with body := d.body.powersAsCalls, clauses := d.clauses.map Clause.powersAsCalls }

/-! ## Agreement with a third -/

theorem forall₂_join {α β γ : Type} {r : α → γ → Prop} {s : β → γ → Prop} {t : α → β → Prop} {as : List α}
    {bs : List β} {cs : List γ} (has : List.Forall₂ r as cs) (hbs : List.Forall₂ s bs cs)
    (h : ∀ a b c, r a c → s b c → t a b) : List.Forall₂ t as bs := by
  induction has generalizing bs with
  | nil =>
    cases hbs
    exact .nil
  | cons ha _ ih =>
    cases hbs with
    | cons hb hbs => exact .cons (h _ _ _ ha hb) (ih hbs)

theorem Instr.Agrees.join {i j k : Instr} (hi : i.Agrees k) (hj : j.Agrees k) : i.Agrees j := by
  cases hi with
  | push =>
    cases hj
    exact .push
  | load =>
    cases hj
    exact .load
  | apply hp =>
    cases hj with
    | apply hq =>
      obtain ⟨hpname, hparity⟩ := Operation.beq_iff.1 hp
      obtain ⟨hqname, hqarity⟩ := Operation.beq_iff.1 hq
      exact .apply (Operation.beq_iff.2 ⟨hpname.trans hqname.symm, hparity.trans hqarity.symm⟩)

theorem Program.Agrees.join {p q r : Program} (hp : p.Agrees r) (hq : q.Agrees r) : p.Agrees q :=
  forall₂_join hp hq fun _ _ _ => Instr.Agrees.join

theorem Check.Agrees.join {b c d : Check} (hb : b.Agrees d) (hc : c.Agrees d) : b.Agrees c :=
  ⟨hb.relation.trans hc.relation.symm, hb.left.join hc.left, hb.right.join hc.right⟩

theorem Branch.Agrees.join {b c d : Branch} (hb : b.Agrees d) (hc : c.Agrees d) : b.Agrees c :=
  ⟨forall₂_join hb.guard hc.guard fun _ _ _ => Check.Agrees.join, hb.value.join hc.value⟩

theorem Body.Agrees.join {b c d : Body} (hb : b.Agrees d) (hc : c.Agrees d) : b.Agrees c :=
  ⟨forall₂_join hb.branches hc.branches fun _ _ _ => Branch.Agrees.join, hb.fallback.join hc.fallback⟩

/-! ## Code -/

/-- operations of one signature, or none at all -/
abbrev SameSignature (op? op?' : Option Operation) : Prop := Option.Rel (fun p q => (p == q) = true) op? op?'

/-- what `^` looks for and what a call of `pow` looks for have one signature -/
def Library.SharesPower (lib : Library) : Prop := SameSignature (lib.resolve? "pow") (lib.function? "pow")

theorem SameSignature.refl (op? : Option Operation) : SameSignature op? op? := by
  cases op? with
  | none => exact .none
  | some op => exact .some (Operation.beq_iff.2 ⟨rfl, rfl⟩)

theorem application_alike {op? op?' : Option Operation} (h : SameSignature op? op?') (name : String) (argc : Nat) :
    Alike Eq Instr.Agrees (application op? name argc) (application op?' name argc) := by
  cases h with
  | none => exact .error rfl
  | some hpq =>
    simp only [application, (Operation.beq_iff.1 hpq).2]
    split
    · exact .ok (.apply hpq)
    · exact .error rfl

section

variable {lib : Library}

/-- the code of a call of two operands is that of an operator -/
theorem code_call_pair (name : String) (a b : Expr) : (Expr.call name [a, b]).code lib = (do
    let left ← a.code lib
    let right ← b.code lib
    let i ← application (lib.function? name) name 2
    return left ++ right ++ [i]) := by
  simp [Expr.code, Expr.codeAll, bind_assoc]

theorem codeAll_alike {as : List Expr}
    (has : ∀ a ∈ as, Alike Eq (List.Forall₂ Instr.Agrees) (a.code lib) (a.powersAsCalls.code lib)) :
    Alike Eq (List.Forall₂ Instr.Agrees) (Expr.codeAll lib as) (Expr.codeAll lib (Expr.powersAsCallsAll as)) := by
  induction as with
  | nil => exact .ok .nil
  | cons a as ih =>
    obtain ⟨ha, has⟩ := List.forall_mem_cons.1 has
    exact ha.bind fun _ _ hfirst => (ih has).bind fun _ _ hothers => .ok (List.rel_append hfirst hothers)

/-- **The code of an expression** agrees with that of the expression with calls for powers, or fails alike. -/
theorem code_alike (h : lib.SharesPower) (e : Expr) :
    Alike Eq (List.Forall₂ Instr.Agrees) (e.code lib) (e.powersAsCalls.code lib) := by
  induction e using Expr.induct with
  | number x => exact .ok (.cons .push .nil)
  | param name index => exact .ok (.cons .load .nil)
  | constant name =>
    rw [Expr.powersAsCalls, Expr.code]
    cases lib.constant? name with
    | none => exact .error rfl
    | some z => exact .ok (.cons .push .nil)
  | unary op a ih =>
    exact ih.bind fun _ _ ha => (application_alike (.refl _) op 1).bind fun _ _ hi =>
      .ok (List.rel_append ha (.cons hi .nil))
  | binary op a b iha ihb =>
    rw [Expr.powersAsCalls]
    split
    case isTrue hop =>
      subst hop
      rw [code_call_pair]
      exact iha.bind fun _ _ ha => ihb.bind fun _ _ hb => (application_alike h "pow" 2).bind fun _ _ hi =>
        .ok (List.rel_append (List.rel_append ha hb) (.cons hi .nil))
    case isFalse =>
      exact iha.bind fun _ _ ha => ihb.bind fun _ _ hb => (application_alike (.refl _) op 2).bind fun _ _ hi =>
        .ok (List.rel_append (List.rel_append ha hb) (.cons hi .nil))
  | call name args ih =>
    rw [Expr.powersAsCalls, Expr.code, Expr.code, Expr.powersAsCallsAll_length]
    exact (codeAll_alike ih).bind fun _ _ hargs => (application_alike (.refl _) name args.length).bind fun _ _ hi =>
      .ok (List.rel_append hargs (.cons hi .nil))

theorem ofExpr_alike (h : lib.SharesPower) (e : Expr) :
    Alike Eq Program.Agrees (Program.ofExpr lib e) (Program.ofExpr lib e.powersAsCalls) :=
  (code_alike h e).bind fun _ _ his => .ok his

theorem ofComparison_alike (h : lib.SharesPower) (c : Comparison) :
    Alike Eq Check.Agrees (Check.ofComparison lib c) (Check.ofComparison lib c.powersAsCalls) :=
  (ofExpr_alike h c.left).bind fun _ _ hleft => (ofExpr_alike h c.right).bind fun _ _ hright => .ok ⟨rfl, hleft, hright⟩

theorem mapM_alike {α β : Type} {f : α → Except Fault β} {g : α → α} {r : β → β → Prop}
    (h : ∀ a, Alike Eq r (f a) (f (g a))) (as : List α) :
    Alike Eq (List.Forall₂ r) (as.mapM f) ((as.map g).mapM f) :=
  .mapM (List.forall₂_map_right_iff.2 (List.forall₂_same.2 fun a _ => h a))

theorem ofClause_alike (h : lib.SharesPower) (c : Clause) :
    Alike Eq Branch.Agrees (Branch.ofClause lib c) (Branch.ofClause lib c.powersAsCalls) :=
  (mapM_alike (ofComparison_alike h) c.guard).bind fun _ _ hguard =>
    (ofExpr_alike h c.value).bind fun _ _ hvalue => .ok ⟨hguard, hvalue⟩

/-- **The procedure of a definition** agrees with that of the definition with calls for powers, or fails alike. -/
theorem ofDeclaration_alike (h : lib.SharesPower) (d : Declaration) :
    Alike Eq (fun p q => p.body.Agrees q.body) (Procedure.ofDeclaration lib d)
      (Procedure.ofDeclaration lib d.powersAsCalls) := by
  have hbody : Alike Eq Body.Agrees (Body.ofDeclaration lib d) (Body.ofDeclaration lib d.powersAsCalls) :=
    (mapM_alike (ofClause_alike h) d.clauses).bind fun _ _ hbranches =>
      (ofExpr_alike h d.body).bind fun _ _ hfallback => .ok ⟨hbranches, hfallback⟩
  exact hbody.bind fun _ _ hbodies => .ok hbodies

/-- definitions that differ in how powers are written have bodies that agree, or fail alike -/
theorem ofDeclaration_powers (h : lib.SharesPower) {d d' : Declaration} (hd : d.powersAsCalls = d'.powersAsCalls) :
    Alike Eq (fun p q => p.body.Agrees q.body) (Procedure.ofDeclaration lib d) (Procedure.ofDeclaration lib d') := by
  have hd' := ofDeclaration_alike h d'
  rw [← hd] at hd'
  exact (ofDeclaration_alike h d).join hd' fun _ _ _ => Body.Agrees.join

end

/-! ## The libraries that come ready made -/

namespace Library

/-- a function of the extended library is one of its entries -/
theorem mem_functionEntries {entropy : UInt64} {name : String} {p : Operation}
    (h : (extended entropy).function? name = some p) : p ∈ functionEntries entropy := by
  rw [extended_eq_registerAll, ← held?_function_iff, held?_registerAll] at h
  rcases h with ⟨hlatest, -⟩ | ⟨-, hcore⟩
  · obtain ⟨q, hq, hpq⟩ := List.mem_map.1 hlatest.mem
    exact Entry.function.inj hpq ▸ hq
  · cases hcore

/-- the power behind `^` and `pow` -/
theorem operation?_extended_pow (entropy : UInt64) :
    (extended entropy).operation? "pow" = some (.binary "pow" Complex.principalPower) := by
  rw [operation?_extended]
  rfl

theorem function?_extended_pow (entropy : UInt64) :
    (extended entropy).function? "pow" = some (.binary "pow" Complex.principalPower) := by
  rw [extended_eq_registerAll, function?_registerAll]
  rfl

/-- **`pow` is the one shared name** of the extended library. -/
theorem shared_extended_iff (entropy : UInt64) (name : String) :
    (∃ p q, (extended entropy).operation? name = some p ∧ (extended entropy).function? name = some q) ↔
      name = "pow" := by
  constructor
  · intro ⟨p, q, hp, hq⟩
    rw [operation?_extended] at hp
    have hname : name ∈ core.operations.names := Table.mem_names_iff.2 ⟨p, hp⟩
    have hfunctions : (functionEntries entropy).map Operation.name = (functionEntries 0).map Operation.name := by
      simp only [functionEntries, absolute, List.map_cons, List.map_nil, Operation.unary, Operation.binary]
    have hshared : ∀ name ∈ core.operations.names, name ∈ (functionEntries 0).map Operation.name → name = "pow" := by
      decide +kernel
    apply hshared name hname
    rw [← hfunctions, ← (filled_extended entropy).function_name hq]
    exact List.mem_map_of_mem (mem_functionEntries hq)
  · rintro rfl
    exact ⟨_, _, operation?_extended_pow entropy, function?_extended_pow entropy⟩

/-- the two powers of the extended library do the same -/
theorem coherent_extended (entropy : UInt64) : (extended entropy).Coherent := by
  intro name name' p q hp hq hpq
  have hfilled := filled_extended entropy
  obtain rfl : name = name' := by
    rw [← hfilled.operation_name hp, ← hfilled.function_name hq, (Operation.beq_iff.1 hpq).1]
  obtain rfl := (shared_extended_iff entropy name).1 ⟨p, q, hp, hq⟩
  rw [Option.some.inj (hp.symm.trans (operation?_extended_pow entropy)),
    Option.some.inj (hq.symm.trans (function?_extended_pow entropy))]
  exact fun _ _ => rfl

/-- the basic library has no functions -/
theorem coherent_basic : basic.Coherent := by
  intro name name' p q _ hq
  rw [function?_basic] at hq
  cases hq

theorem sharesPower_extended (entropy : UInt64) : (extended entropy).SharesPower := by
  rw [SharesPower, resolve?, operation?_extended_pow, function?_extended_pow]
  exact SameSignature.refl _

/-- none of the constants is NaN -/
theorem constant_beq_self (entropy : UInt64) (name : String) (z : Complex)
    (h : (extended entropy).constant? name = some z) : (z == z) = true := by
  have hconstants : (extended entropy).constants = core.constants := (tables_foldl_registerFunction core _).2
  have hcore : ∀ e ∈ core.constants.entries, (e.2 == e.2) = true := by decide +kernel
  rw [constant?, hconstants] at h
  exact hcore (name, z) ((Table.lookup_eq_some_iff core.constants.ascending).1 h)

end Library

/-- no literal that was read from a text is NaN -/
theorem isNaN_of_mem_literals {lib : Library} {hooks : List Hook} {source : String} {tokens : List Token}
    {d : Declaration} (hhooks : Hook.AtMostImaginaryUnit hooks) (hscan : scanWith lib hooks source = .ok tokens)
    (hd : Declaration.ofTokens tokens = .ok d) : ∀ x ∈ d.literals, x.isNaN = false := by
  intro x hx
  obtain ⟨e, he, hx⟩ := List.mem_flatMap.1 hx
  obtain ⟨t, ht, hk, hread⟩ := (Declaration.isRead_of_ofTokens hd).written he _ (Expr.mem_literals.1 hx)
  exact (isNegative_isNaN_of_number hhooks hscan ht hk hread).2

/-! ## Comparing by signature -/

/-- **Comparing by signature suffices.** Procedures of one library that was filled by registrations and is coherent, as
the two that come ready made are, give the same value or fault at all arguments if their bodies agree up to signatures.
So over the extended library, and with one choice of what `random` yields, x^y and pow(x, y) can be written for each
other anywhere in a definition: the bodies agree and have the same values, and they are equal unless a literal is NaN,
which none is that was read from a text. -/
theorem signatures_suffice :
    (∀ lib : Library, lib.Filled → lib.Coherent → ∀ d d' p p', Procedure.ofDeclaration lib d = .ok p →
        Procedure.ofDeclaration lib d' = .ok p' → p.body.Agrees p'.body →
        ∀ args, p.body.eval args = p'.body.eval args) ∧
      ((∀ entropy, (Library.extended entropy).Filled ∧ (Library.extended entropy).Coherent ∧
        ∀ name, (∃ p q, (Library.extended entropy).operation? name = some p ∧
          (Library.extended entropy).function? name = some q) ↔ name = "pow") ∧
        Library.basic.Filled ∧ Library.basic.Coherent) ∧
      (∀ entropy d d', d.powersAsCalls = d'.powersAsCalls → ∀ p, Procedure.ofDeclaration (.extended entropy) d = .ok p →
        ∃ p', Procedure.ofDeclaration (.extended entropy) d' = .ok p' ∧ p.body.Agrees p'.body ∧
          ((p.body == p'.body) = true ↔ ∀ x ∈ d.literals, x.isNaN = false) ∧
          ∀ args, p.body.eval args = p'.body.eval args) ∧
      ∀ lib hooks source tokens d, Hook.AtMostImaginaryUnit hooks → scanWith lib hooks source = .ok tokens →
        Declaration.ofTokens tokens = .ok d → ∀ x ∈ d.literals, x.isNaN = false := by
  refine ⟨?_, ⟨?_, Library.filled_basic, Library.coherent_basic⟩, ?_, ?_⟩
  · intro lib hfilled hcoherent d d' p p' hp hp' hagrees
    exact eval_eq_of_agrees hfilled hcoherent hp hp' hagrees
  · intro entropy
    exact ⟨Library.filled_extended entropy, Library.coherent_extended entropy, Library.shared_extended_iff entropy⟩
  · intro entropy d d' hd p hp
    obtain ⟨p', hp', hagrees⟩ := (ofDeclaration_powers (Library.sharesPower_extended entropy) hd).exists_of_eq_ok hp
    refine ⟨p', hp', hagrees, ?_, ?_⟩
    · rw [hagrees.beq_iff]
      exact forall_equalsItself_iff (Library.constant_beq_self entropy) (lists_of_ofDeclaration hp)
    · exact eval_eq_of_agrees (Library.filled_extended entropy) (Library.coherent_extended entropy) hp hp' hagrees
  · intro lib hooks source tokens d hhooks hscan hd
    exact isNaN_of_mem_literals hhooks hscan hd

/-- `f(x, y) = x ^ 2 if pow(x, y) > 1; pow(x, y) ^ x` -/
def mixedPowers : Declaration where
  name := "f"
  params := [⟨"x", 0⟩, ⟨"y", 1⟩]
  body := .binary "pow" (.call "pow" [.param "x" 0, .param "y" 1]) (.param "x" 0)
  clauses := [⟨[⟨.gt, .call "pow" [.param "x" 0, .param "y" 1], .number 1⟩], .binary "pow" (.param "x" 0) (.number 2)⟩]

/-- `f(x, y) = pow(x, 2) if x ^ y > 1; pow(x ^ y, x)` -/
def swappedPowers : Declaration where
  name := "f"
  params := [⟨"x", 0⟩, ⟨"y", 1⟩]
  body := .call "pow" [.binary "pow" (.param "x" 0) (.param "y" 1), .param "x" 0]
  clauses := [⟨[⟨.gt, .binary "pow" (.param "x" 0) (.param "y" 1), .number 1⟩], .call "pow" [.param "x" 0, .number 2]⟩]

/-- the two are equal bodies with the same values; and the literals of the first one as a text are numbers -/
theorem signatures_suffice_mixed :
    (∃ p p', Procedure.ofDeclaration (.extended 0) mixedPowers = .ok p ∧
      Procedure.ofDeclaration (.extended 0) swappedPowers = .ok p' ∧ p.body.Agrees p'.body ∧
      (p.body == p'.body) = true ∧ ∀ args, p.body.eval args = p'.body.eval args) ∧
    ∃ tokens d, scanWith (.extended 0) [Hook.imaginaryUnit] mixedPowers.text = .ok tokens ∧
      Declaration.ofTokens tokens = .ok d ∧ ∀ x ∈ d.literals, x.isNaN = false := by
  obtain ⟨hsound, ⟨hextended, -⟩, hpowers, hread⟩ := signatures_suffice
  constructor
  · have hok : (Procedure.ofDeclaration (.extended 0) mixedPowers).map Procedure.arity = .ok 2 := by decide +kernel
    obtain ⟨p, hp, -⟩ := map_eq_ok_iff.1 hok
    have hcalls : mixedPowers.powersAsCalls = swappedPowers.powersAsCalls := rfl
    obtain ⟨p', hp', hagrees, hequal, -⟩ := hpowers 0 mixedPowers swappedPowers hcalls p hp
    refine ⟨p, p', hp, hp', hagrees, hequal.2 (by decide +kernel), ?_⟩
    exact hsound _ (hextended 0).1 (hextended 0).2.1 _ _ p p' hp hp' hagrees
  · have hok : (scanWith (.extended 0) [Hook.imaginaryUnit] mixedPowers.text >>= Declaration.ofTokens).map
        (fun d => d.params.length) = .ok 2 := by decide +kernel
    obtain ⟨d, hd, -⟩ := map_eq_ok_iff.1 hok
    obtain ⟨tokens, hscan, hd⟩ := bind_eq_ok_iff.1 hd
    exact ⟨tokens, d, hscan, hd, hread _ _ _ tokens d (.inr rfl) hscan hd⟩

end ComplexFormula

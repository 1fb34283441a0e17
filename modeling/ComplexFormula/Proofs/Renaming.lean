/-
Parameters under other names. Where the name of a parameter is replaced by one that no identifier has, in the head and
wherever it is used, the tokens form the same definition with that parameter renamed, even if the new name is that of a
constant of the library; and since programs refer to parameters by their places, they stay the same.

- `renamed`, `Token.rename`, `Expr.rename`, `Declaration.rename`: the replacement, on tokens and on what they form.
- `Phrase.rename`: phrases, by induction on the grammar.
- `IsDefinition.rename`: heads, guards, pieces and whole definitions.
- `Expr.code_rename`, `Body.ofDeclaration_rename`: the programs stay.
- `parameter_renamed`: **the name of a parameter does not matter**.
-/
import ComplexFormula.Library.Standard
import ComplexFormula.Procedure
import ComplexFormula.Proofs.Definition.Form
import Mathlib.Data.List.Nodup

namespace ComplexFormula

open Grammar

/-! ## Renaming -/

/-- the name that stands for `name` once p is called q -/
def renamed (p q name : String) : String := if name = p then q else name

/-- identifiers are renamed; whatever else has the text p stays -/
def Token.rename (p q : String) (t : Token) : Token :=
  if t.kind = .identifier then { t with text := renamed p q t.text } else t

def Param.rename (p q : String) (x : Param) : Param := { x with name := renamed p q x.name }

namespace Expr

mutual

/-- parameters are renamed; constants and functions of the name p stay -/
def rename (p q : String) : Expr → Expr
  | .number x => .number x
  | .param name index => .param (renamed p q name) index
  | .constant name => .constant name
  | .unary op a => .unary op (a.rename p q)
  | .binary op a b => .binary op (a.rename p q) (b.rename p q)
  | .call name args => .call name (renameAll p q args)

/-- several expressions -/
def renameAll (p q : String) : List Expr → List Expr
  | [] => []
  | a :: as => a.rename p q :: renameAll p q as

end

theorem renameAll_eq_map (p q : String) (as : List Expr) : renameAll p q as = as.map (rename p q) := by
  induction as with
  | nil => rfl
  | cons a as ih => rw [renameAll, ih, List.map_cons]

end Expr

def Comparison.rename (p q : String) (c : Comparison) : Comparison :=
  ⟨c.relation, c.left.rename p q, c.right.rename p q⟩

def Clause.rename (p q : String) (c : Clause) : Clause := ⟨c.guard.map (Comparison.rename p q), c.value.rename p q⟩

/-- the name of the function changes too if it is that of the parameter -/
def Declaration.rename (p q : String) (d : Declaration) : Declaration where
  name := renamed p q d.name
  params := d.params.map (Param.rename p q)
  body := d.body.rename p q
  clauses := d.clauses.map (Clause.rename p q)

/-- p is the name of a parameter, and q is not -/
structure Renamable (p q : String) (params : List Param) : Prop where
  old : ∃ x ∈ params, x.name = p
  new : ∀ x ∈ params, x.name ≠ q

/-- no identifier among the tokens has that text -/
def Unused (name : String) (ts : List Token) : Prop := ∀ t ∈ ts, t.kind = .identifier → t.text ≠ name

section

variable {p q : String}

/-! ## Names -/

theorem renamed_of_ne {name : String} (h : name ≠ p) : renamed p q name = name := if_neg h

/-- names other than q stay different -/
theorem renamed_inj {a b : String} (ha : a ≠ q) (hb : b ≠ q) : renamed p q a = renamed p q b ↔ a = b := by
  constructor
  · intro h
    unfold renamed at h
    by_cases hap : a = p <;> by_cases hbp : b = p
    · exact hap.trans hbp.symm
    · rw [if_pos hap, if_neg hbp] at h
      exact absurd h.symm hb
    · rw [if_neg hap, if_pos hbp] at h
      exact absurd h ha
    · rwa [if_neg hap, if_neg hbp] at h
  · intro h
    rw [h]

theorem nodup_map_renamed {names : List String} (h : names.Nodup) (hq : ∀ name ∈ names, name ≠ q) :
    (names.map (renamed p q)).Nodup :=
  List.Nodup.map_on (fun a ha b hb => (renamed_inj (hq a ha) (hq b hb)).1) h

theorem numbered_map_renamed (n : Nat) (names : List String) :
    numbered n (names.map (renamed p q)) = (numbered n names).map (Param.rename p q) := by
  induction names generalizing n with
  | nil => rfl
  | cons name names ih =>
    rw [List.map_cons, numbered_cons, ih, numbered_cons, List.map_cons]
    rfl

/-- the renamed name is found where the name is -/
theorem find?_map_rename {params : List Param} {name : String} (hparams : ∀ x ∈ params, x.name ≠ q) (hname : name ≠ q) :
    (params.map (Param.rename p q)).find? (·.name == renamed p q name) =
      (params.find? (·.name == name)).map (Param.rename p q) := by
  induction params with
  | nil => rfl
  | cons x params ih =>
    obtain ⟨hx, hparams⟩ := List.forall_mem_cons.1 hparams
    have hsame : ((x.rename p q).name == renamed p q name) = (x.name == name) := by
      rw [Bool.eq_iff_iff, beq_iff_eq, beq_iff_eq]
      exact renamed_inj hx hname
    rw [List.map_cons, List.find?_cons, List.find?_cons, hsame, ih hparams]
    cases x.name == name <;> rfl

/-! ## Tokens -/

namespace Token

variable {t : Token}

@[simp] theorem kind_rename (t : Token) : (t.rename p q).kind = t.kind := by
  unfold rename
  split <;> rfl

theorem rename_of_ne (h : t.kind ≠ .identifier) : t.rename p q = t := if_neg h

theorem text_rename (h : t.kind = .identifier) : (t.rename p q).text = renamed p q t.text := by
  rw [rename, if_pos h]

/-- tokens of other kinds keep their text -/
theorem is_rename {kind : Kind} (hk : kind ≠ .identifier) (t : Token) (text : String) :
    (t.rename p q).is kind text = t.is kind text := by
  by_cases h : t.kind = .identifier
  · have hne : (t.kind == kind) = false := by
      rw [h, beq_eq_false_iff_ne]
      exact hk.symm
    rw [is, is, kind_rename, hne, Bool.false_and, Bool.false_and]
  · rw [rename_of_ne h]

end Token

namespace Unused

variable {ts us : List Token} {t : Token}

theorem mono (h : Unused q ts) (hsub : us ⊆ ts) : Unused q us := fun t ht => h t (hsub ht)

theorem of_append (h : Unused q (ts ++ us)) : Unused q ts ∧ Unused q us := List.forall_mem_append.1 h

theorem of_cons (h : Unused q (t :: ts)) : Unused q ts := (List.forall_mem_cons.1 h).2

end Unused

/-! ## Phrases -/

namespace Grammar

variable {t : Token} {text op : String}

theorem IsOperator.rename (h : IsOperator t text) : IsOperator (t.rename p q) text := by
  rwa [Token.rename_of_ne (by simp [h.1])]

theorem SumSign.rename (h : SumSign t op) : SumSign (t.rename p q) op := h.imp (.imp_left .rename) (.imp_left .rename)

theorem IsMod.rename (h : IsMod t) : IsMod (t.rename p q) := by
  have hk : t.kind ≠ .identifier := by
    rcases h.1 with hk | hk <;> simp [hk]
  rwa [Token.rename_of_ne hk]

theorem ProductSign.rename (h : ProductSign t op) : ProductSign (t.rename p q) op :=
  h.imp (.imp_left .rename) (.imp (.imp_left .rename) (.imp_left (.imp .rename .rename)))

theorem Adjacent.rename {bars : Bool} {ts us : List Token} (h : Adjacent bars ts us) :
    Adjacent bars (ts.map (Token.rename p q)) (us.map (Token.rename p q)) := by
  simpa [Adjacent] using h

variable {params : List Param} {level : Level} {bars : Bool} {ts : List Token} {e : Expr}

/-- **Phrases** stay phrases, with the parameter renamed in the tree. -/
theorem Phrase.rename (hpq : Renamable p q params) (h : Phrase params level bars ts e) (hts : Unused q ts) :
    Phrase (params.map (Param.rename p q)) level bars (ts.map (Token.rename p q)) (e.rename p q) := by
  induction h with
  | lift hlevel _ ih => exact .lift hlevel (ih hts)
  | sum _ ht _ iha ihb =>
    obtain ⟨hleft, hright⟩ := hts.of_append
    rw [List.map_append, List.map_cons, Expr.rename]
    exact .sum (iha hleft) ht.rename (ihb hright.of_cons)
  | product _ ht _ iha ihb =>
    obtain ⟨hleft, hright⟩ := hts.of_append
    rw [List.map_append, List.map_cons, Expr.rename]
    exact .product (iha hleft) ht.rename (ihb hright.of_cons)
  | juxtaposed _ _ hadjacent iha ihb =>
    obtain ⟨hleft, hright⟩ := hts.of_append
    rw [List.map_append, Expr.rename]
    exact .juxtaposed (iha hleft) (ihb hright) hadjacent.rename
  | minus ht _ ih => exact .minus ht.rename (ih hts.of_cons)
  | plus ht _ ih => exact .plus ht.rename (ih hts.of_cons)
  | power _ ht _ iha ihb =>
    obtain ⟨hleft, hright⟩ := hts.of_append
    rw [List.map_append, List.map_cons, Expr.rename]
    exact .power (iha hleft) ht.rename (ihb hright.of_cons)
  | factorial _ ht ih =>
    rw [List.map_append, List.map_singleton, Expr.rename]
    exact .factorial (ih hts.of_append.1) ht.rename
  | @number _ t x ht hx =>
    rw [List.map_singleton, Token.rename_of_ne (by simp [ht])]
    exact .number ht hx
  | @param _ t x ht hx =>
    have hfound := find?_map_rename (p := p) hpq.new (hts t (List.mem_singleton_self t) ht)
    rw [hx] at hfound
    rw [← Token.text_rename ht] at hfound
    exact .param (by simp [ht]) hfound
  | @name bars t ht hne =>
    -- p is a parameter, so an identifier that is none keeps its text, and no renamed parameter has it
    have hother : t.text ≠ p := by
      obtain ⟨x, hx, rfl⟩ := hpq.old
      exact (hne x hx).symm
    have htext : (t.rename p q).text = t.text := (Token.text_rename ht).trans (renamed_of_ne hother)
    have hname : Phrase (params.map (Param.rename p q)) .atom bars [t.rename p q] (.constant (t.rename p q).text) := by
      refine .name (by simp [ht]) (List.forall_mem_map.2 ?_)
      intro x hx
      rw [Token.text_rename ht]
      exact mt (renamed_inj (hpq.new x hx) (hts t (List.mem_singleton_self t) ht)).1 (hne x hx)
    rwa [htext] at hname
  | @constant _ t ht =>
    rw [List.map_singleton, Token.rename_of_ne (by simp [ht])]
    exact .constant ht
  | group ho _ hc ih =>
    have hts := (hts.of_append.1).of_cons
    rw [List.map_append, List.map_cons]
    exact .group (by simp [ho]) (ih hts) (by simp [hc])
  | modulus ho _ hc ih =>
    have hts := (hts.of_append.1).of_cons
    rw [List.map_append, List.map_cons]
    exact .modulus (by simp [ho]) (ih hts) (by simp [hc])
  | @emptyCall _ f _ _ hf ho hc =>
    rw [List.map_cons, Token.rename_of_ne (t := f) (by simp [hf])]
    exact .emptyCall hf (by simp [ho]) (by simp [hc])
  | @firstArgument _ f _ _ _ hf ho _ ih =>
    rw [List.map_cons, Token.rename_of_ne (t := f) (by simp [hf])]
    exact .firstArgument hf (by simp [ho]) (ih hts.of_cons.of_cons)
  | @nextArgument _ ts c _ _ _ _ _ hc _ ihas ihb =>
    obtain ⟨hleft, hright⟩ := hts.of_append
    have has := ihas hleft
    rw [Expr.rename, Expr.renameAll_eq_map] at has
    rw [List.map_append, List.map_cons, Expr.rename, Expr.renameAll_eq_map, List.map_append]
    exact .nextArgument has (by simp [hc]) (ihb hright.of_cons)
  | call _ hc ih =>
    rw [List.map_append]
    exact .call (ih hts.of_append.1) (by simp [hc])

end Grammar

/-! ## Expressions -/

namespace Expr

theorem heightAll_map {f : Expr → Expr} {as : List Expr} (hf : ∀ a ∈ as, (f a).height = a.height) :
    heightAll (as.map f) = heightAll as := by
  induction as with
  | nil => rfl
  | cons a as ih =>
    obtain ⟨ha, has⟩ := List.forall_mem_cons.1 hf
    rw [List.map_cons, heightAll, heightAll, ha, ih has]

theorem height_rename (e : Expr) : (e.rename p q).height = e.height := by
  induction e using Expr.induct with
  | number | param | constant => rfl
  | unary op a ih => rw [rename, height, height, ih]
  | binary op a b iha ihb => rw [rename, height, height, iha, ihb]
  | call name args ih => rw [rename, height, height, renameAll_eq_map, heightAll_map ih]

variable {lib : Library}

theorem codeAll_map {f : Expr → Expr} {as : List Expr} (hf : ∀ a ∈ as, (f a).code lib = a.code lib) :
    codeAll lib (as.map f) = codeAll lib as := by
  induction as with
  | nil => rfl
  | cons a as ih =>
    obtain ⟨ha, has⟩ := List.forall_mem_cons.1 hf
    rw [List.map_cons, codeAll, codeAll, ha, ih has]

/-- **Code** refers to parameters by their places alone. -/
theorem code_rename (lib : Library) (e : Expr) : (e.rename p q).code lib = e.code lib := by
  induction e using Expr.induct with
  | number | param | constant => rfl
  | unary op a ih => rw [rename, code, code, ih]
  | binary op a b iha ihb => rw [rename, code, code, iha, ihb]
  | call name args ih => rw [rename, code, code, renameAll_eq_map, codeAll_map ih, List.length_map]

end Expr

/-! ## Pieces -/

section

variable {params : List Param} {ts : List Token} {e : Expr}

theorem Denotes.rename (hpq : Renamable p q params) (h : Denotes params ts e) (hts : Unused q ts) :
    Denotes (params.map (Param.rename p q)) (ts.map (Token.rename p q)) (e.rename p q) := by
  obtain ⟨hphrase, hheight⟩ := phrase_of_ofTokens (h 0)
  rw [← Expr.height_rename (p := p) (q := q)] at hheight
  exact ofTokens_of_phrase (hphrase.rename hpq hts) hheight

theorem Chain.rename (hpq : Renamable p q params) {cs : List Comparison} (h : Chain params ts e cs)
    (hts : Unused q ts) : Chain (params.map (Param.rename p q)) (ts.map (Token.rename p q)) (e.rename p q)
      (cs.map (Comparison.rename p q)) := by
  induction h with
  | last h => exact .last (h.rename hpq hts)
  | @link _ t _ _ _ _ _ h ht hr _ ih =>
    obtain ⟨hfirst, hrest⟩ := hts.of_append
    have hk : t.kind ≠ .identifier := by
      rcases ht with ht | ht <;> simp [ht]
    rw [List.map_append, List.map_cons, Token.rename_of_ne hk]
    exact .link (h.rename hpq hfirst) ht hr (ih hrest.of_cons)

theorem IsGuard.rename (hpq : Renamable p q params) {cs : List Comparison} (h : IsGuard params ts cs)
    (hts : Unused q ts) : IsGuard (params.map (Param.rename p q)) (ts.map (Token.rename p q))
      (cs.map (Comparison.rename p q)) := by
  obtain ⟨parts, chains, hparts, hchains, rfl⟩ := h
  refine ⟨parts.map (List.map (Token.rename p q)), chains.map (List.map (Comparison.rename p q)),
    hparts.map fun t => Token.is_rename (by decide) t "and", ?_, List.map_flatten⟩
  have hunused : ∀ part ∈ parts, Unused q part := fun part hpart => hts.mono (hparts.subset part hpart)
  rw [List.forall₂_map_left_iff, List.forall₂_map_right_iff]
  refine ((List.forall₂_and_left _ _).2 ⟨hunused, hchains⟩).imp ?_
  intro part chain ⟨hpart, hne, e, hchain⟩
  exact ⟨mt List.map_eq_nil_iff.1 hne, e.rename p q, hchain.rename hpq hpart⟩

theorem forall_is_rename {name : String} (h : ∀ t ∈ ts, t.is .keyword name = false) :
    ∀ t ∈ ts.map (Token.rename p q), t.is .keyword name = false := by
  refine List.forall_mem_map.2 ?_
  intro t ht
  rw [Token.is_rename (by decide), h t ht]

theorem IsClause.rename (hpq : Renamable p q params) {c : Clause} (h : IsClause params ts c) (hts : Unused q ts) :
    IsClause (params.map (Param.rename p q)) (ts.map (Token.rename p q)) (c.rename p q) := by
  obtain ⟨value, opener, guard, rfl, hif, hopener, hvalue, hguard⟩ := h
  obtain ⟨hleft, hright⟩ := hts.of_append
  refine ⟨value.map (Token.rename p q), opener.rename p q, guard.map (Token.rename p q), ?_, forall_is_rename hif, ?_,
    hvalue.rename hpq hleft, hguard.rename hpq hright.of_cons⟩
  · rw [List.map_append, List.map_cons]
  · rwa [Token.is_rename (by decide)]

theorem IsBody.rename (hpq : Renamable p q params) (h : IsBody params ts e) (hts : Unused q ts) :
    IsBody (params.map (Param.rename p q)) (ts.map (Token.rename p q)) (e.rename p q) := by
  obtain ⟨hif, us, hus, hpiece⟩ := h
  refine ⟨forall_is_rename hif, us.map (Token.rename p q), ?_, ?_⟩
  · refine hus.rename hpq (hts.mono ?_)
    rcases hpiece with rfl | ⟨t, -, rfl⟩
    · exact List.Subset.refl _
    · exact List.subset_append_left _ _
  · refine hpiece.imp (congrArg _) ?_
    intro ⟨t, ht, hts⟩
    refine ⟨t.rename p q, ?_, ?_⟩
    · rwa [Token.is_rename (by decide)]
    · rw [hts, List.map_append, List.map_singleton]

end

/-! ## Heads -/

section

variable {names : List String} {ts : List Token}

theorem Listed.rename (h : Listed names ts) : Listed (names.map (renamed p q)) (ts.map (Token.rename p q)) := by
  induction h with
  | single ht =>
    rw [List.map_singleton, List.map_singleton, ← Token.text_rename ht]
    exact .single (by simp [ht])
  | cons ht hc _ ih =>
    rw [List.map_cons, List.map_cons, List.map_cons, ← Token.text_rename ht]
    exact .cons (by simp [ht]) (by simp [hc]) ih

/-- the names in a head are identifiers -/
theorem IsHead.ne_of_unused {name : String} (h : IsHead name names ts) (hts : Unused q ts) :
    ∀ other ∈ names, other ≠ q := by
  obtain ⟨n, o, us, c, eq, rfl, -, -, -, hlisted | ⟨rfl, -⟩, -⟩ := h.shape
  · intro other hother
    obtain ⟨t, ht, hk, rfl⟩ := exists_of_listed hlisted other hother
    exact hts t (by simp [ht]) hk
  · exact List.forall_mem_nil _

theorem IsHead.rename {name : String} (h : IsHead name names ts) (hts : Unused q ts) :
    IsHead (renamed p q name) (names.map (renamed p q)) (ts.map (Token.rename p q)) := by
  have hnodup := nodup_map_renamed (p := p) h.nodup (h.ne_of_unused hts)
  obtain ⟨n, o, us, c, eq, rfl, hn, rfl, ho, hlisted, hc, heq⟩ := h.shape
  refine ⟨⟨n.rename p q, o.rename p q, us.map (Token.rename p q), c.rename p q, eq.rename p q, ?_, ?_⟩, hnodup⟩
  · simp
  · refine ⟨by simp [hn], Token.text_rename hn, by simp [ho], hlisted.imp .rename ?_, by simp [hc], by simp [heq]⟩
    rintro ⟨rfl, rfl⟩
    exact ⟨rfl, rfl⟩

end

/-! ## Definitions -/

/-- **The written form** stays, with the parameter renamed in the definition. -/
theorem IsDefinition.rename {tokens : List Token} {d : Declaration} (h : IsDefinition tokens d)
    (hp : p ∈ d.paramNames) (hq : Unused q tokens) : IsDefinition (tokens.map (Token.rename p q)) (d.rename p q) := by
  obtain ⟨head, names, rest, ps, before, piece, after, rfl, hhead, hparams, hsep, hps, hbody, hclauses⟩ := h
  obtain ⟨hunusedHead, hunusedRest⟩ := hq.of_append
  have hpq : Renamable p q d.params := by
    refine ⟨List.mem_map.1 hp, ?_⟩
    intro x hx
    refine hhead.ne_of_unused hunusedHead x.name ?_
    rw [← map_name_numbered 0 names, ← hparams]
    exact List.mem_map_of_mem hx
  have hunused : ∀ u ∈ before ++ piece :: after, Unused q u := by
    intro u hu
    rw [← hps] at hu
    exact hunusedRest.mono (hsep.subset u (List.mem_of_mem_filter hu))
  have hunusedClauses : ∀ u ∈ before ++ after, Unused q u := by
    intro u hu
    refine hunused u ?_
    simp only [List.mem_append, List.mem_cons] at hu ⊢
    exact hu.imp_right .inr
  refine ⟨head.map (Token.rename p q), names.map (renamed p q), rest.map (Token.rename p q),
    ps.map (List.map (Token.rename p q)), before.map (List.map (Token.rename p q)), piece.map (Token.rename p q),
    after.map (List.map (Token.rename p q)), List.map_append, hhead.rename hunusedHead, ?_, ?_, ?_,
    hbody.rename hpq (hunused piece (by simp)), ?_⟩
  · rw [numbered_map_renamed, ← hparams]
    rfl
  · exact hsep.map fun t => by rw [Token.kind_rename]
  · have hempty : (fun u : List Token => !(u.map (Token.rename p q)).isEmpty) = (!·.isEmpty) := by
      funext u
      rw [List.isEmpty_map]
    rw [List.filter_map, Function.comp_def, hempty, hps, List.map_append, List.map_cons]
  · rw [← List.map_append]
    show List.Forall₂ _ _ (d.clauses.map (Clause.rename p q))
    rw [List.forall₂_map_left_iff, List.forall₂_map_right_iff]
    refine ((List.forall₂_and_left _ _).2 ⟨hunusedClauses, hclauses⟩).imp ?_
    intro u c ⟨hu, hc⟩
    exact hc.rename hpq hu

/-! ## Programs -/

section

variable (lib : Library)

theorem Program.ofExpr_rename (e : Expr) : Program.ofExpr lib (e.rename p q) = Program.ofExpr lib e := by
  rw [ofExpr, ofExpr, Expr.code_rename]

theorem Check.ofComparison_rename (c : Comparison) :
    Check.ofComparison lib (c.rename p q) = Check.ofComparison lib c := by
  rw [ofComparison, ofComparison, Comparison.rename, Program.ofExpr_rename, Program.ofExpr_rename]

theorem Branch.ofClause_rename (c : Clause) : Branch.ofClause lib (c.rename p q) = Branch.ofClause lib c := by
  simp only [ofClause, Clause.rename, List.mapM_map, Function.comp_def, Check.ofComparison_rename,
    Program.ofExpr_rename]

/-- **The programs** stay, or the same name is missing. -/
theorem Body.ofDeclaration_rename (d : Declaration) :
    Body.ofDeclaration lib (d.rename p q) = Body.ofDeclaration lib d := by
  simp only [ofDeclaration, Declaration.rename, List.mapM_map, Function.comp_def, Branch.ofClause_rename,
    Program.ofExpr_rename]

/-- the same programs, so the same values, at whatever arguments -/
theorem Procedure.ofDeclaration_rename (d : Declaration) :
    Alike Eq (fun f g => f.body = g.body ∧ ∀ args, f.call args = g.call args)
      (Procedure.ofDeclaration lib (d.rename p q)) (Procedure.ofDeclaration lib d) := by
  rw [ofDeclaration, ofDeclaration, Body.ofDeclaration_rename]
  cases Body.ofDeclaration lib d with
  | error fault => exact .error rfl
  | ok b =>
    refine .ok ⟨rfl, ?_⟩
    have harity : arity ⟨d.rename p q, b⟩ = arity ⟨d, b⟩ := List.length_map _
    intro args
    rw [call, call, harity]

end

end

/-- **The name of a parameter does not matter.** Where every identifier that is the name of a parameter gets another
name that no identifier has, the tokens form the same definition with that parameter renamed; and under every library,
even one with a constant of the new name, both definitions fail for the same fault or have the same programs. -/
theorem parameter_renamed {tokens : List Token} {d : Declaration} (h : Declaration.ofTokens tokens = .ok d)
    {p q : String} (hp : p ∈ d.paramNames) (hq : Unused q tokens) :
    Declaration.ofTokens (tokens.map (Token.rename p q)) = .ok (d.rename p q) ∧
      ∀ lib, Alike Eq (fun f g => f.body = g.body ∧ ∀ args, f.call args = g.call args)
        (Procedure.ofDeclaration lib (d.rename p q)) (Procedure.ofDeclaration lib d) := by
  constructor
  · exact ofTokens_of_isDefinition ((isDefinition_of_ofTokens h).rename hp hq)
  · intro lib
    exact Procedure.ofDeclaration_rename lib d

/-- the tokens of `f(x) = x + e`, the last one read as a constant -/
def shadowTokens : List Token :=
  [⟨.identifier, "f", 0, 1⟩, ⟨.leftParen, "(", 1, 2⟩, ⟨.identifier, "x", 2, 3⟩, ⟨.rightParen, ")", 3, 4⟩,
    ⟨.equals, "=", 5, 6⟩, ⟨.identifier, "x", 7, 8⟩, ⟨.operator, "+", 9, 10⟩, ⟨.constant, "e", 11, 12⟩]

/-- the parameter is given the name of a constant, which the last token still denotes -/
theorem parameter_renamed_shadow : ∃ d, Declaration.ofTokens shadowTokens = .ok d ∧
    Declaration.ofTokens (shadowTokens.map (Token.rename "x" "e")) = .ok (d.rename "x" "e") ∧
    (d.rename "x" "e").text = "f(e) = (e + e)" ∧
    Alike Eq (fun f g => f.body = g.body ∧ ∀ args, f.call args = g.call args)
      (Procedure.ofDeclaration .basic (d.rename "x" "e")) (Procedure.ofDeclaration .basic d) := by
  have hread : (Declaration.ofTokens shadowTokens).map (fun d => (d.paramNames, (d.rename "x" "e").text)) =
      .ok (["x"], "f(e) = (e + e)") := by decide +kernel
  obtain ⟨d, hd, hd'⟩ := map_eq_ok_iff.1 hread
  obtain ⟨hnames, htext⟩ := Prod.mk.inj hd'
  have hp : "x" ∈ d.paramNames := by simp [hnames]
  have hq : Unused "e" shadowTokens := by simp [Unused, shadowTokens]
  obtain ⟨hrenamed, halike⟩ := parameter_renamed hd hp hq
  exact ⟨d, hd, hrenamed, htext, halike .basic⟩

end ComplexFormula

/-
The written form of definitions. A definition is read exactly where one is written: a head, and pieces between
semicolons, one of them the body and each other one a clause. The relations below say what is written without saying
how it is read; expressions alone are taken as the parser of expressions takes them.

- `Denotes`: tokens of an expression, wherever they end.
- `Chain`: operands with relations between them, and the comparisons of neighbours.
- `IsGuard`, `IsClause`, `IsBody`: the parts of a piece.
- `IsDefinition`: the written form of a definition.
- `Declaration.isDefinition_iff`: **exactly the written form is read**, as what is written.
-/
import ComplexFormula.Proofs.Definition.Cutting
import ComplexFormula.Proofs.Definition.Header
import ComplexFormula.Proofs.Grammar.Soundness

namespace ComplexFormula

open Grammar

/-! ## Expressions -/

/-- the tokens are accepted as this expression, at whatever byte they end -/
def Denotes (params : List Param) (ts : List Token) (e : Expr) : Prop :=
  ∀ stop, Expr.ofTokens params stop ts = .ok e

section

variable {params : List Param} {stop : Nat} {ts us : List Token} {e : Expr}

/-- where the tokens end counts for faults alone -/
theorem ofTokens_iff_denotes (stop : Nat) : Expr.ofTokens params stop ts = .ok e ↔ Denotes params ts e := by
  constructor
  · intro h
    obtain ⟨hphrase, hheight⟩ := phrase_of_ofTokens h
    exact ofTokens_of_phrase hphrase hheight
  · intro h
    exact h stop

/-- no token of an expression separates the parts of a definition -/
theorem Denotes.inner (h : Denotes params ts e) : ∀ t ∈ ts, Inner t := (phrase_of_ofTokens (h 0)).1.inner

theorem Grammar.Inner.isRelation_eq {t : Token} (h : Inner t) : isRelation t = false := by
  obtain ⟨hcomparison, hequals, -⟩ := h
  simp [isRelation, hcomparison, hequals]

theorem is_keyword_of_mod {t : Token} (h : t.kind = .keyword → t.text = "mod") {name : String} (hname : name ≠ "mod") :
    t.is .keyword name = false := by
  rw [Token.is, Bool.and_eq_false_iff, beq_eq_false_iff_ne, beq_eq_false_iff_ne]
  refine not_and_or.1 ?_
  rintro ⟨hk, rfl⟩
  exact hname (h hk)

theorem Grammar.Inner.is_keyword_eq {t : Token} (h : Inner t) {name : String} (hname : name ≠ "mod") :
    t.is .keyword name = false := is_keyword_of_mod h.2.2.2 hname

end

/-! ## Guards -/

/-- operands with relations between them, the expression of the first one, and the comparisons of all neighbours -/
inductive Chain (params : List Param) : List Token → Expr → List Comparison → Prop where
  | last {ts e} (h : Denotes params ts e) : Chain params ts e []
  | link {ts t us r e e' cs} (h : Denotes params ts e) (ht : t.kind = .comparison ∨ t.kind = .equals)
    (hr : Relation.ofSymbol? t.text = some r) (hrest : Chain params us e' cs) :
    Chain params (ts ++ t :: us) e (⟨r, e, e'⟩ :: cs)

/-- parts with `and` between them, each a chain with at least one relation, and all comparisons in order -/
def IsGuard (params : List Param) (ts : List Token) (cs : List Comparison) : Prop :=
  ∃ parts chains, Separated (·.is .keyword "and") ts parts ∧
    List.Forall₂ (fun part chain => chain ≠ [] ∧ ∃ e, Chain params part e chain) parts chains ∧ cs = chains.flatten

section

variable {params : List Param} {stop : Nat} {ts : List Token} {e : Expr}

theorem isRelation_iff {t : Token} : isRelation t = true ↔ t.kind = .comparison ∨ t.kind = .equals := by
  simp [isRelation]

theorem relationOf_eq_ok_iff {t : Token} {r : Relation} :
    relationOf t = .ok r ↔ Relation.ofSymbol? t.text = some r := by
  rw [relationOf]
  split <;> simp_all

theorem chain_of_readChain {first : List Token} {others : List (Token × List Token)}
    (hparted : Parted isRelation ts first others) {links : List (Relation × Expr)}
    (h : readChain params stop first others = .ok (e, links)) : Chain params ts e (neighbours e links) := by
  induction hparted generalizing e links with
  | last hts =>
    obtain ⟨e', he, h⟩ := bind_eq_ok_iff.1 h
    obtain ⟨rfl, rfl⟩ := Prod.mk.inj (Except.ok.inj h)
    exact .last ((ofTokens_iff_denotes _).1 he)
  | cons hts hs _ ih =>
    obtain ⟨r, hr, h⟩ := bind_eq_ok_iff.1 h
    obtain ⟨e', he, h⟩ := bind_eq_ok_iff.1 h
    obtain ⟨⟨e'', links'⟩, hrest, h⟩ := bind_eq_ok_iff.1 h
    obtain ⟨rfl, rfl⟩ := Prod.mk.inj (Except.ok.inj h)
    exact .link ((ofTokens_iff_denotes _).1 he) (isRelation_iff.1 hs) (relationOf_eq_ok_iff.1 hr) (ih hrest)

/-- no operand holds a relation, so the chain is cut where it was put together -/
theorem readChain_of_chain {cs : List Comparison} (h : Chain params ts e cs) (stop : Nat) :
    ∃ first others links, Parted isRelation ts first others ∧ readChain params stop first others = .ok (e, links) ∧
      cs = neighbours e links := by
  induction h with
  | @last ts e h =>
    refine ⟨ts, [], [], .last fun t ht => (h.inner t ht).isRelation_eq, ?_, rfl⟩
    rw [readChain, h]
    rfl
  | @link ts t us r e e' cs h ht hr _ ih =>
    obtain ⟨first, others, links, hparted, hread, rfl⟩ := ih
    refine ⟨ts, (t, first) :: others, (r, e') :: links, ?_, ?_, rfl⟩
    · exact .cons (fun u hu => (h.inner u hu).isRelation_eq) (isRelation_iff.2 ht) hparted
    · rw [readChain, relationOf_eq_ok_iff.2 hr, h, hread]
      rfl

/-- a chain with a relation has a comparison -/
theorem neighbours_ne_nil {first : List Token} {others : List (Token × List Token)} {links : List (Relation × Expr)}
    (h : readChain params stop first others = .ok (e, links)) (hothers : others ≠ []) : neighbours e links ≠ [] := by
  obtain ⟨p, others, rfl⟩ := List.exists_cons_of_ne_nil hothers
  obtain ⟨r, -, h⟩ := bind_eq_ok_iff.1 h
  obtain ⟨e', -, h⟩ := bind_eq_ok_iff.1 h
  obtain ⟨⟨e'', links'⟩, -, h⟩ := bind_eq_ok_iff.1 h
  obtain ⟨-, rfl⟩ := Prod.mk.inj (Except.ok.inj h)
  exact List.cons_ne_nil _ _

theorem readComparisons_eq_ok_iff {cs : List Comparison} :
    readComparisons params stop ts = .ok cs ↔ cs ≠ [] ∧ ∃ e, Chain params ts e cs := by
  constructor
  · intro h
    unfold readComparisons at h
    split at h
    case h_1 => cases h
    case h_2 first others hne hsplit =>
      obtain ⟨⟨e, links⟩, hchain, h⟩ := bind_eq_ok_iff.1 h
      obtain rfl := Except.ok.inj h
      exact ⟨neighbours_ne_nil hchain hne, e, chain_of_readChain (split_eq_iff.1 hsplit) hchain⟩
  · rintro ⟨hne, e, hchain⟩
    obtain ⟨first, others, links, hparted, hread, rfl⟩ := readChain_of_chain hchain (endOf ts stop)
    rw [readComparisons, hparted.split_eq]
    cases others with
    | nil =>
      obtain ⟨e', -, hread⟩ := bind_eq_ok_iff.1 hread
      obtain ⟨-, rfl⟩ := Prod.mk.inj (Except.ok.inj hread)
      exact absurd rfl hne
    | cons =>
      simp only [hread]
      rfl

/-- **A guard** is read exactly where one is written. -/
theorem readGuard_eq_ok_iff {cs : List Comparison} : readGuard params stop ts = .ok cs ↔ IsGuard params ts cs := by
  simp only [readGuard, bind_eq_ok_iff, mapM_eq_ok_iff, readComparisons_eq_ok_iff, pure_eq_ok, Except.ok.injEq]
  constructor
  · rintro ⟨chains, hchains, rfl⟩
    exact ⟨_, chains, pieces_eq_iff.1 rfl, hchains, rfl⟩
  · rintro ⟨parts, chains, hparts, hchains, rfl⟩
    rw [pieces_eq_iff.2 hparts]
    exact ⟨chains, hchains, rfl⟩

end

/-! ## Pieces -/

/-- a value, the first `if`, and a guard -/
def IsClause (params : List Param) (piece : List Token) (c : Clause) : Prop :=
  ∃ value opener guard, piece = value ++ opener :: guard ∧ (∀ t ∈ value, t.is .keyword "if" = false) ∧
    opener.is .keyword "if" = true ∧ Denotes params value c.value ∧ IsGuard params guard c.guard

/-- an expression without any `if`, and perhaps an `otherwise` behind it -/
def IsBody (params : List Param) (piece : List Token) (e : Expr) : Prop :=
  (∀ t ∈ piece, t.is .keyword "if" = false) ∧
    ∃ ts, Denotes params ts e ∧ (piece = ts ∨ ∃ t, t.is .keyword "otherwise" = true ∧ piece = ts ++ [t])

section

variable {params : List Param} {stop : Nat} {ts : List Token} {e : Expr}

theorem readClause_eq_ok_iff {value guard : List Token} {opener : Token} {c : Clause} :
    readClause params stop value opener guard = .ok c ↔
      Denotes params value c.value ∧ IsGuard params guard c.guard := by
  simp only [readClause, bind_eq_ok_iff, ofTokens_iff_denotes, readGuard_eq_ok_iff, pure_eq_ok, Except.ok.injEq]
  constructor
  · rintro ⟨value, hvalue, guard, hguard, rfl⟩
    exact ⟨hvalue, hguard⟩
  · rintro ⟨hvalue, hguard⟩
    exact ⟨c.value, hvalue, c.guard, hguard, rfl⟩

theorem withoutOtherwise_append {t : Token} (ht : t.is .keyword "otherwise" = true) :
    withoutOtherwise (ts ++ [t]) = ts := by
  simp [withoutOtherwise, ht]

theorem withoutOtherwise_of_forall (hts : ∀ t ∈ ts, t.is .keyword "otherwise" = false) : withoutOtherwise ts = ts := by
  refine if_neg ?_
  rw [Bool.not_eq_true, Option.any_eq_false]
  intro t ht
  simp [hts t (List.mem_of_getLast? ht)]

theorem withoutOtherwise_cases (ts : List Token) :
    withoutOtherwise ts = ts ∨ ∃ t, t.is .keyword "otherwise" = true ∧ ts = withoutOtherwise ts ++ [t] := by
  rcases List.eq_nil_or_concat ts with rfl | ⟨us, t, rfl⟩
  · exact .inl rfl
  · cases ht : t.is .keyword "otherwise" with
    | true => exact .inr ⟨t, ht, by simp [withoutOtherwise, ht]⟩
    | false => exact .inl (by simp [withoutOtherwise, ht])

theorem readBody_eq_ok_iff {pos : Nat} {piece : List Token} : readBody params pos piece = .ok e ↔
    ∃ ts, Denotes params ts e ∧ (piece = ts ∨ ∃ t, t.is .keyword "otherwise" = true ∧ piece = ts ++ [t]) := by
  rw [readBody, ofTokens_iff_denotes]
  constructor
  · intro h
    exact ⟨withoutOtherwise piece, h, (withoutOtherwise_cases piece).imp_left Eq.symm⟩
  · rintro ⟨ts, h, rfl | ⟨t, ht, rfl⟩⟩
    · rwa [withoutOtherwise_of_forall fun t ht => (h.inner t ht).is_keyword_eq (by decide)]
    · rwa [withoutOtherwise_append ht]

theorem isClause_iff_of_some {piece value guard : List Token} {opener : Token} {c : Clause}
    (h : splitIf? piece = some (value, opener, guard)) (stop : Nat) :
    IsClause params piece c ↔ readClause params stop value opener guard = .ok c := by
  rw [readClause_eq_ok_iff]
  constructor
  · rintro ⟨value', opener', guard', rfl, hvalue, hopener, hread⟩
    have hsame := h.symm.trans (splitIf?_append hvalue hopener)
    simp only [Option.some.injEq, Prod.mk.injEq] at hsame
    obtain ⟨rfl, -, rfl⟩ := hsame
    exact hread
  · intro hread
    obtain ⟨hpiece, hvalue, hopener⟩ := splitIf?_eq_some_iff.1 h
    exact ⟨value, opener, guard, hpiece, hvalue, hopener, hread⟩

theorem not_isClause_of_none {piece : List Token} (h : splitIf? piece = none) (c : Clause) :
    ¬IsClause params piece c := by
  rintro ⟨value, opener, guard, rfl, hvalue, hopener, -⟩
  rw [splitIf?_append hvalue hopener] at h
  cases h

theorem isBody_iff_of_none {piece : List Token} (h : splitIf? piece = none) (pos : Nat) :
    IsBody params piece e ↔ readBody params pos piece = .ok e := by
  rw [readBody_eq_ok_iff, IsBody, and_iff_right (splitIf?_eq_none_iff.1 h)]

theorem not_isBody_of_some {piece : List Token} {parts : List Token × Token × List Token}
    (h : splitIf? piece = some parts) : ¬IsBody params piece e := by
  rintro ⟨hpiece, -⟩
  rw [splitIf?_of_forall hpiece] at h
  cases h

variable {body : Expr} {done clauses : List Clause} {ps : List (List Token)}

/-- behind the body there are clauses alone, and pieces without tokens -/
theorem readPieces_some_eq_ok_iff {b : Expr} : readPieces params stop (some b) done ps = .ok (body, clauses) ↔
    body = b ∧ ∃ cs, clauses = done.reverse ++ cs ∧
      List.Forall₂ (IsClause params) (ps.filter (!·.isEmpty)) cs := by
  induction ps generalizing done with
  | nil => simp [readPieces, eq_comm]
  | cons p ps ih =>
    cases p with
    | nil => exact ih
    | cons t ts =>
      rw [readPieces, List.filter_cons_of_pos rfl]
      cases hsplit : splitIf? (t :: ts) with
      | none =>
        simp only [reduceCtorEq, false_iff, not_and, not_exists]
        rintro - cs - hcs
        obtain ⟨c, _, hc, -⟩ := List.forall₂_cons_left_iff.1 hcs
        exact not_isClause_of_none hsplit c hc
      | some parts =>
        obtain ⟨value, opener, guard⟩ := parts
        simp only [List.forall₂_cons_left_iff, isClause_iff_of_some hsplit (endOf (t :: ts) stop)]
        cases hclause : readClause params (endOf (t :: ts) stop) value opener guard with
        | error fault => simp
        | ok clause =>
          simp only [ih, List.reverse_cons, List.append_assoc, List.singleton_append, Except.ok.injEq]
          refine and_congr_right fun _ => ⟨?_, ?_⟩
          · rintro ⟨cs, rfl, hcs⟩
            exact ⟨clause :: cs, rfl, clause, cs, rfl, hcs, rfl⟩
          · rintro ⟨cs, rfl, c, cs', rfl, hcs, rfl⟩
            exact ⟨cs', rfl, hcs⟩

/-- **The pieces** of a definition: one body, wherever it stands, and clauses in order -/
theorem readPieces_none_eq_ok_iff : readPieces params stop none done ps = .ok (body, clauses) ↔
    ∃ before piece after cs, ps.filter (!·.isEmpty) = before ++ piece :: after ∧ IsBody params piece body ∧
      clauses = done.reverse ++ cs ∧ List.Forall₂ (IsClause params) (before ++ after) cs := by
  induction ps generalizing done with
  | nil => simp [readPieces]
  | cons p ps ih =>
    cases p with
    | nil => exact ih
    | cons t ts =>
      rw [readPieces, List.filter_cons_of_pos rfl]
      cases hsplit : splitIf? (t :: ts) with
      | none =>
        constructor
        · intro h
          cases hbody : readBody params t.start (t :: ts) with
          | error fault => simp [hbody] at h
          | ok b =>
            simp only [hbody, readPieces_some_eq_ok_iff] at h
            obtain ⟨rfl, cs, hclauses, hcs⟩ := h
            exact ⟨[], t :: ts, _, cs, rfl, (isBody_iff_of_none hsplit _).2 hbody, hclauses, hcs⟩
        · rintro ⟨before, piece, after, cs, hps, hbody, hclauses, hcs⟩
          cases before with
          | nil =>
            obtain ⟨rfl, rfl⟩ := List.cons.inj hps
            simp only [(isBody_iff_of_none hsplit t.start).1 hbody, readPieces_some_eq_ok_iff]
            exact ⟨trivial, cs, hclauses, hcs⟩
          | cons q before =>
            obtain ⟨rfl, -⟩ := List.cons.inj hps
            obtain ⟨c, _, hc, -⟩ := List.forall₂_cons_left_iff.1 hcs
            exact absurd hc (not_isClause_of_none hsplit c)
      | some parts =>
        obtain ⟨value, opener, guard⟩ := parts
        constructor
        · intro h
          cases hclause : readClause params (endOf (t :: ts) stop) value opener guard with
          | error fault => simp [hclause] at h
          | ok clause =>
            simp only [hclause, ih] at h
            obtain ⟨before, piece, after, cs, hps, hbody, rfl, hcs⟩ := h
            have hfirst := (isClause_iff_of_some hsplit _).2 hclause
            exact ⟨(t :: ts) :: before, piece, after, clause :: cs, by rw [hps]; rfl, hbody, by simp, .cons hfirst hcs⟩
        · rintro ⟨before, piece, after, cs, hps, hbody, rfl, hcs⟩
          cases before with
          | nil =>
            obtain ⟨rfl, -⟩ := List.cons.inj hps
            exact absurd hbody (not_isBody_of_some hsplit)
          | cons q before =>
            obtain ⟨rfl, hrest⟩ := List.cons.inj hps
            obtain ⟨c, cs', hc, hcs', rfl⟩ := List.forall₂_cons_left_iff.1 hcs
            simp only [(isClause_iff_of_some hsplit _).1 hc, ih]
            exact ⟨before, piece, after, cs', hrest, hbody, by simp, hcs'⟩

end

/-! ## Definitions -/

/-- the written form of a definition: a head with different parameters, numbered from zero, and behind it pieces with
semicolons between them; of those with tokens one is the body, wherever it stands, and the others are the clauses -/
def IsDefinition (tokens : List Token) (d : Declaration) : Prop :=
  ∃ head names rest ps before piece after, tokens = head ++ rest ∧ IsHead d.name names head ∧
    d.params = numbered 0 names ∧ Separated (·.kind == .semicolon) rest ps ∧
    ps.filter (!·.isEmpty) = before ++ piece :: after ∧ IsBody d.params piece d.body ∧
    List.Forall₂ (IsClause d.params) (before ++ after) d.clauses

/-- what is read has the written form -/
theorem isDefinition_of_ofTokens {tokens : List Token} {d : Declaration} (h : Declaration.ofTokens tokens = .ok d) :
    IsDefinition tokens d := by
  obtain ⟨⟨name, params, rest⟩, hhead, h⟩ := bind_eq_ok_iff.1 h
  obtain ⟨⟨body, clauses⟩, hpieces, h⟩ := bind_eq_ok_iff.1 h
  obtain rfl := Except.ok.inj h
  obtain ⟨names, head, rfl, hhead, hparams⟩ := readHead_eq_ok_iff.1 hhead
  obtain ⟨before, piece, after, cs, hps, hbody, rfl, hcs⟩ := readPieces_none_eq_ok_iff.1 hpieces
  exact ⟨head, names, rest, _, before, piece, after, rfl, hhead, hparams, pieces_eq_iff.1 rfl, hps, hbody, hcs⟩

/-- what has the written form is read -/
theorem ofTokens_of_isDefinition {tokens : List Token} {d : Declaration} (h : IsDefinition tokens d) :
    Declaration.ofTokens tokens = .ok d := by
  obtain ⟨head, names, rest, ps, before, piece, after, rfl, hhead, hparams, hsep, hps, hbody, hcs⟩ := h
  have hread : readPieces d.params (endOf (head ++ rest) 0) none [] (pieces (·.kind == .semicolon) rest) =
      .ok (d.body, d.clauses) := by
    rw [pieces_eq_iff.2 hsep]
    exact readPieces_none_eq_ok_iff.2 ⟨before, piece, after, d.clauses, hps, hbody, rfl, hcs⟩
  refine bind_eq_ok_iff.2 ⟨(d.name, d.params, rest), readHead_eq_ok_iff.2 ⟨names, head, rfl, hhead, hparams⟩, ?_⟩
  exact bind_eq_ok_iff.2 ⟨(d.body, d.clauses), hread, rfl⟩

/-- **Exactly the written form is read**, and it is read as what is written. -/
theorem Declaration.isDefinition_iff (tokens : List Token) (d : Declaration) :
    Declaration.ofTokens tokens = .ok d ↔ IsDefinition tokens d := by
  constructor
  · exact isDefinition_of_ofTokens
  · exact ofTokens_of_isDefinition

end ComplexFormula

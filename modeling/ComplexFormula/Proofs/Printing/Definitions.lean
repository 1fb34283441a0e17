/-
Tokens with the lexemes of a printed definition are read as that definition: the head up to the equals sign, then the
clauses up to their semicolons, each cut at its `if`, its guard at every `and`, and at last the body.

- `readComparisons_of_lexemes`, `readGuard_of_lexemes`, `readClause_of_lexemes`: the parts of a clause.
- `isHead_of_lexemes`, `readPieces_of_lexemes`: the parts of a definition.
- `Declaration.ofTokens_of_lexemes`: a whole definition.
-/
import ComplexFormula.Proofs.Definition.Reading
import ComplexFormula.Proofs.Printing.Phrases

namespace ComplexFormula

variable {params : List Param} {kind : String → Token.Kind} {ts us vs : List Token}

/-! ## Separators of definitions -/

theorem isRelation_of_inner {t : Token} (h : t.lexeme.IsInner) : isRelation t = false := by
  obtain ⟨⟨hsemicolon, hkeyword⟩, hequals, hcomparison⟩ := h
  exact Grammar.Inner.isRelation_eq ⟨hcomparison, hequals, hsemicolon, hkeyword⟩

theorem is_keyword_of_chained {t : Token} (h : t.lexeme.IsChained) {name : String} (hname : name ≠ "mod") :
    t.is .keyword name = false := is_keyword_of_mod h.2 hname

/-! ## Guards -/

/-- both sides are accepted again -/
def Comparison.Reparses (params : List Param) (kind : String → Token.Kind) (c : Comparison) : Prop :=
  ∀ e ∈ c.exprs, ComplexFormula.Reparses params kind e

/-- the tokens of a printed comparison: the left side, the relation, the right side -/
theorem Comparison.tokens_of_lexemes {c : Comparison} (hts : ts.map Token.lexeme = c.lexemes kind) :
    ∃ us t vs, ts = us ++ t :: vs ∧ us.map Token.lexeme = c.left.lexemes kind ∧ t.kind = .comparison ∧
      t.text = c.relation.symbol ∧ vs.map Token.lexeme = c.right.lexemes kind := by
  rw [Comparison.lexemes, List.append_assoc] at hts
  obtain ⟨us, ts, rfl, hus, hts⟩ := List.map_eq_append_iff.1 hts
  obtain ⟨t, vs, rfl, hk, htext, hvs⟩ := map_lexeme_cons hts
  exact ⟨us, t, vs, rfl, hus, hk, htext, hvs⟩

/-- a printed comparison is read as a chain of one link -/
theorem readComparisons_of_lexemes {c : Comparison} (h : c.Reparses params kind)
    (hts : ts.map Token.lexeme = c.lexemes kind) (stop : Nat) : readComparisons params stop ts = .ok [c] := by
  obtain ⟨us, t, vs, rfl, hus, hk, htext, hvs⟩ := Comparison.tokens_of_lexemes hts
  have hleft := h c.left (by simp [Comparison.exprs])
  have hright := h c.right (by simp [Comparison.exprs])
  have hsplit : split isRelation (us ++ t :: vs) = (us, [(t, vs)]) := by
    rw [split_append (fun u hu => isRelation_of_inner (hleft.inner hus u hu)), split_separator (by simp [isRelation, hk]),
      split_of_forall fun v hv => isRelation_of_inner (hright.inner hvs v hv)]
    simp
  have hrelation : relationOf t = .ok c.relation := by
    simp only [relationOf, htext, Relation.ofSymbol?_symbol]
  simp only [readComparisons, hsplit, readChain, hrelation, hleft.ofTokens hus, hright.ofTokens hvs, ok_bind, pure_eq_ok,
    neighbours]

/-- no lexeme of a printed comparison separates guards or clauses -/
theorem Comparison.Reparses.chained {c : Comparison} (h : c.Reparses params kind) :
    ∀ l ∈ c.lexemes kind, l.IsChained := by
  intro l hl
  simp only [Comparison.lexemes, List.mem_append, List.mem_singleton] at hl
  rcases hl with (hl | rfl) | hl
  · exact (inner_lexemes (h c.left (by simp [Comparison.exprs])).1 l hl).1
  · simp [Lexeme.IsChained]
  · exact (inner_lexemes (h c.right (by simp [Comparison.exprs])).1 l hl).1

theorem is_and_of_comparison {c : Comparison} (h : c.Reparses params kind)
    (hts : ts.map Token.lexeme = c.lexemes kind) : ∀ t ∈ ts, t.is .keyword "and" = false :=
  fun _ ht => is_keyword_of_chained (h.chained _ (hts ▸ List.mem_map_of_mem ht)) (by decide)

/-- every comparison is accepted again -/
def GuardReparses (params : List Param) (kind : String → Token.Kind) (cs : List Comparison) : Prop :=
  cs ≠ [] ∧ ∀ c ∈ cs, c.Reparses params kind

/-- the pieces of a printed guard are those of its comparisons -/
theorem pieces_of_guard {c : Comparison} {cs : List Comparison} (h : ∀ k ∈ c :: cs, k.Reparses params kind)
    (hts : ts.map Token.lexeme = [.keyword "and"].intercalate ((c :: cs).map (Comparison.lexemes kind))) :
    List.Forall₂ (fun p k => k.Reparses params kind ∧ p.map Token.lexeme = k.lexemes kind)
      (pieces (·.is .keyword "and") ts) (c :: cs) := by
  induction cs generalizing c ts with
  | nil =>
    rw [List.map_singleton, List.intercalate_singleton] at hts
    rw [pieces_of_forall (is_and_of_comparison (h c List.mem_cons_self) hts)]
    exact .cons ⟨h c List.mem_cons_self, hts⟩ .nil
  | cons k cs ih =>
    rw [List.map_cons, List.map_cons, List.intercalate_cons_cons, List.append_assoc, ← List.map_cons] at hts
    obtain ⟨us, ts, rfl, hus, hts⟩ := List.map_eq_append_iff.1 hts
    obtain ⟨t, ts, rfl, hk, htext, hts⟩ := map_lexeme_cons hts
    have hand : t.is .keyword "and" = true := by simp [Token.is, hk, htext, Lexeme.keyword]
    rw [pieces_append (is_and_of_comparison (h c List.mem_cons_self) hus) hand]
    exact .cons ⟨h c List.mem_cons_self, hus⟩ (ih (fun k hk => h k (List.mem_cons_of_mem c hk)) hts)

/-- a printed guard is read as its comparisons -/
theorem readGuard_of_lexemes {cs : List Comparison} (h : GuardReparses params kind cs)
    (hts : ts.map Token.lexeme = [.keyword "and"].intercalate (cs.map (Comparison.lexemes kind))) (stop : Nat) :
    readGuard params stop ts = .ok cs := by
  obtain ⟨hne, hall⟩ := h
  cases cs with
  | nil => exact absurd rfl hne
  | cons c cs =>
    have hpieces := pieces_of_guard hall hts
    have hread : (pieces (·.is .keyword "and") ts).mapM (readComparisons params stop) =
        .ok ((c :: cs).map fun k => [k]) := by
      rw [mapM_eq_ok_iff, List.forall₂_map_right_iff]
      exact hpieces.imp fun p k hp => readComparisons_of_lexemes hp.1 hp.2 stop
    rw [readGuard, hread]
    simp [← List.flatMap_def]

/-! ## Pieces -/

/-- the value and the guard are accepted again -/
def Clause.Reparses (params : List Param) (kind : String → Token.Kind) (c : Clause) : Prop :=
  ComplexFormula.Reparses params kind c.value ∧ GuardReparses params kind c.guard

/-- a printed clause is read as that clause -/
theorem readClause_of_lexemes {c : Clause} (h : c.Reparses params kind) (hts : ts.map Token.lexeme = c.lexemes kind) :
    ∃ us t vs, splitIf? ts = some (us, t, vs) ∧ ∀ stop, readClause params stop us t vs = .ok c := by
  obtain ⟨hvalue, hguard⟩ := h
  rw [Clause.lexemes, List.append_assoc] at hts
  obtain ⟨us, ts, rfl, hus, hts⟩ := List.map_eq_append_iff.1 hts
  obtain ⟨t, vs, rfl, hk, htext, hvs⟩ := map_lexeme_cons hts
  refine ⟨us, t, vs, splitIf?_append (fun u hu => ?_) ?_, fun stop => ?_⟩
  · exact is_keyword_of_chained (hvalue.inner hus u hu).1 (by decide)
  · simp [Token.is, hk, htext, Lexeme.keyword]
  · simp only [readClause, hvalue.ofTokens hus, readGuard_of_lexemes hguard hvs, ok_bind, pure_eq_ok]

/-- no token of a printed clause separates clauses -/
theorem is_semicolon_of_clause {c : Clause} (h : c.Reparses params kind) (hts : ts.map Token.lexeme = c.lexemes kind) :
    ∀ t ∈ ts, (t.kind == .semicolon) = false := by
  intro t ht
  have hl : t.lexeme ∈ c.lexemes kind := hts ▸ List.mem_map_of_mem ht
  obtain ⟨hvalue, hguard⟩ := h
  suffices hkind : t.lexeme.kind ≠ .semicolon by simpa using hkind
  simp only [Clause.lexemes, List.mem_append, List.mem_singleton] at hl
  rcases hl with (hl | hl) | hl
  · exact (inner_lexemes hvalue.1 _ hl).1.1
  · simp [hl, Lexeme.keyword]
  · rcases mem_intercalate hl with hl | ⟨ls, hls, hl⟩
    · simp [List.mem_singleton.1 hl, Lexeme.keyword]
    · obtain ⟨k, hk, rfl⟩ := List.mem_map.1 hls
      exact ((hguard.2 k hk).chained _ hl).1

/-- a printed body is read as that body -/
theorem readBody_of_lexemes {e : Expr} (h : Reparses params kind e) (hts : ts.map Token.lexeme = e.lexemes kind)
    (pos : Nat) : splitIf? ts = none ∧ readBody params pos ts = .ok e := by
  have hfree : ∀ name ≠ "mod", ∀ t ∈ ts, t.is .keyword name = false := fun name hname t ht =>
    is_keyword_of_chained (h.inner hts t ht).1 hname
  have hwhole : withoutOtherwise ts = ts := by
    apply if_neg
    rw [Option.any_eq_true]
    rintro ⟨t, ht, hotherwise⟩
    rw [hfree "otherwise" (by decide) t (List.mem_of_getLast? ht)] at hotherwise
    cases hotherwise
  refine ⟨splitIf?_of_forall (hfree "if" (by decide)), ?_⟩
  simp only [readBody, hwhole, h.ofTokens hts]

/-- printed clauses and a printed body are read as these -/
theorem readPieces_of_lexemes {body : Expr} {cs : List Clause} (hbody : Reparses params kind body)
    (hcs : ∀ c ∈ cs, c.Reparses params kind)
    (hts : ts.map Token.lexeme = cs.flatMap (fun c => c.lexemes kind ++ [.semicolon]) ++ body.lexemes kind) (stop : Nat)
    (done : List Clause) :
    readPieces params stop none done (pieces (·.kind == .semicolon) ts) = .ok (body, done.reverse ++ cs) := by
  induction cs generalizing ts done with
  | nil =>
    have hsemicolon : ∀ t ∈ ts, (t.kind == .semicolon) = false := by
      intro t ht
      simpa using (hbody.inner hts t ht).1.1
    obtain ⟨t, us, rfl⟩ := List.exists_cons_of_ne_nil (hbody.ne_nil hts)
    obtain ⟨hsplit, hread⟩ := readBody_of_lexemes hbody hts t.start
    rw [pieces_of_forall hsemicolon]
    simp [readPieces, hsplit, hread]
  | cons c cs ih =>
    have hc := hcs c List.mem_cons_self
    rw [List.flatMap_cons, List.append_assoc, List.append_assoc] at hts
    obtain ⟨us, ts, rfl, hus, hts⟩ := List.map_eq_append_iff.1 hts
    obtain ⟨s, ts, rfl, hs, -, hts⟩ := map_lexeme_cons hts
    have hrest := ih (fun k hk => hcs k (List.mem_cons_of_mem c hk)) hts (c :: done)
    obtain ⟨value, t, guard, hsplit, hread⟩ := readClause_of_lexemes hc hus
    rw [pieces_append (is_semicolon_of_clause hc hus) (by simp [hs, Lexeme.semicolon])]
    cases us with
    | nil => simp [splitIf?] at hsplit
    | cons u us => simp [readPieces, hsplit, hread, hrest]

/-! ## Heads -/

/-- printed names are listed with commas between them -/
theorem listed_of_lexemes {name : String} {names : List String} (hnames : ∀ n ∈ name :: names, kind n = .identifier)
    (hts : ts.map Token.lexeme = [.comma].intercalate ((name :: names).map fun n => [⟨kind n, n⟩])) :
    Listed (name :: names) ts := by
  induction names generalizing name ts with
  | nil =>
    rw [List.map_singleton, List.intercalate_singleton] at hts
    obtain ⟨t, rfl, hk, htext⟩ := map_lexeme_singleton hts
    obtain rfl : t.text = name := htext
    exact .single (hk.trans (hnames _ List.mem_cons_self))
  | cons n names ih =>
    rw [List.map_cons, List.map_cons, List.intercalate_cons_cons, List.append_assoc] at hts
    obtain ⟨t, us, rfl, hk, htext, hus⟩ := map_lexeme_cons hts
    obtain ⟨c, vs, rfl, hc, -, hvs⟩ := map_lexeme_cons hus
    obtain rfl : t.text = name := htext
    exact .cons (hk.trans (hnames _ List.mem_cons_self)) hc (ih (fun m hm => hnames m (List.mem_cons_of_mem _ hm)) hvs)

/-- a printed head is a head -/
theorem isHead_of_lexemes {d : Declaration} (hnames : ∀ n ∈ d.name :: d.paramNames, kind n = .identifier)
    (hnodup : d.paramNames.Nodup) (hts : ts.map Token.lexeme = d.headLexemes kind) : IsHead d.name d.paramNames ts := by
  refine ⟨?_, hnodup⟩
  simp only [Declaration.headLexemes, List.cons_append, List.nil_append] at hts
  obtain ⟨n, ts, rfl, hn, hntext, hts⟩ := map_lexeme_cons hts
  obtain ⟨o, ts, rfl, ho, -, hts⟩ := map_lexeme_cons hts
  obtain ⟨us, ts, rfl, hus, hts⟩ := List.map_eq_append_iff.1 hts
  obtain ⟨c, ts, rfl, hc, -, hts⟩ := map_lexeme_cons hts
  obtain ⟨eq, rfl, heq, -⟩ := map_lexeme_singleton hts
  refine ⟨n, o, us, c, eq, by simp, hn.trans (hnames _ List.mem_cons_self), hntext, ho, ?_, hc, heq⟩
  cases hparams : d.paramNames with
  | nil =>
    rw [hparams] at hus
    exact .inr ⟨rfl, List.map_eq_nil_iff.1 hus⟩
  | cons name names =>
    rw [hparams] at hus
    exact .inl (listed_of_lexemes (fun m hm => hnames m (List.mem_cons_of_mem _ (hparams ▸ hm))) hus)

/-! ## Definitions -/

/-- what has to hold of a definition for its lexemes to be read as it was written -/
structure Declaration.Reparses (kind : String → Token.Kind) (d : Declaration) : Prop where
  params : d.params = numbered 0 d.paramNames
  nodup : d.paramNames.Nodup
  name : ∀ n ∈ d.name :: d.paramNames, kind n = .identifier
  guarded : ∀ c ∈ d.clauses, c.guard ≠ []
  expr : ∀ e ∈ d.exprs, ComplexFormula.Reparses d.params kind e

theorem Declaration.Reparses.clause {d : Declaration} (h : d.Reparses kind) {c : Clause} (hc : c ∈ d.clauses) :
    c.Reparses d.params kind := by
  have hexprs : ∀ e ∈ c.exprs, ComplexFormula.Reparses d.params kind e := fun e he =>
    h.expr e (List.mem_append_left _ (List.mem_flatMap.2 ⟨c, hc, he⟩))
  refine ⟨hexprs c.value (by simp [Clause.exprs]), h.guarded c hc, ?_⟩
  intro k hk e he
  exact hexprs e (List.mem_append_left _ (List.mem_flatMap.2 ⟨k, hk, he⟩))

/-- **A printed definition** is read as that definition. -/
theorem Declaration.ofTokens_of_lexemes {d : Declaration} (h : d.Reparses kind)
    (hts : ts.map Token.lexeme = d.lexemes kind) : Declaration.ofTokens ts = .ok d := by
  rw [Declaration.lexemes, List.append_assoc] at hts
  obtain ⟨head, rest, rfl, hhead, hrest⟩ := List.map_eq_append_iff.1 hts
  have hread : readHead (endOf (head ++ rest) 0) (head ++ rest) = .ok (d.name, d.params, rest) :=
    readHead_eq_ok_iff.2 ⟨d.paramNames, head, rfl, isHead_of_lexemes h.name h.nodup hhead, h.params⟩
  have hbody := h.expr d.body (by simp [Declaration.exprs])
  have hpieces := readPieces_of_lexemes hbody (fun c hc => h.clause hc) hrest (endOf (head ++ rest) 0) []
  simp only [Declaration.ofTokens, hread, hpieces, ok_bind, pure_eq_ok, List.reverse_nil, List.nil_append]

end ComplexFormula

/-
What is known of a definition that has been read: its parameters are numbered and have different names, every guard has
a comparison, and every expression was read from some of the tokens.

- `ReadFrom`: an expression that was read from some of the tokens.
- `IsGuard.guarded`, `IsClause.isRead`, `IsBody.readFrom`: the parts of a definition.
- `Declaration.IsRead`, `Declaration.isRead_of_ofTokens`: all of that for a whole definition.
- `Declaration.IsRead.written`: every node was written by one of the tokens.
-/
import ComplexFormula.Proofs.Definition.Form
import ComplexFormula.Proofs.Grammar.Origin

namespace ComplexFormula

/-- the expression was read from some of the tokens -/
def ReadFrom (params : List Param) (tokens : List Token) (e : Expr) : Prop :=
  ∃ us stop, us ⊆ tokens ∧ Expr.ofTokens params stop us = .ok e

/-- every side of every comparison was read from the tokens, and there is a comparison -/
def Guarded (params : List Param) (tokens : List Token) (cs : List Comparison) : Prop :=
  cs ≠ [] ∧ ∀ c ∈ cs, ∀ e ∈ c.exprs, ReadFrom params tokens e

/-- the guard has a comparison, and every expression was read from the tokens -/
def Clause.IsRead (params : List Param) (tokens : List Token) (c : Clause) : Prop :=
  c.guard ≠ [] ∧ ∀ e ∈ c.exprs, ReadFrom params tokens e

section

variable {params : List Param} {tokens us piece : List Token} {e : Expr} {cs : List Comparison}

theorem Denotes.readFrom (h : Denotes params us e) (hsub : us ⊆ tokens) : ReadFrom params tokens e :=
  ⟨us, 0, hsub, h 0⟩

/-- every comparison of a chain compares two of its operands -/
theorem Chain.readFrom (h : Chain params us e cs) (hsub : us ⊆ tokens) :
    ReadFrom params tokens e ∧ ∀ c ∈ cs, ∀ e' ∈ c.exprs, ReadFrom params tokens e' := by
  induction h with
  | last h => exact ⟨h.readFrom hsub, by simp⟩
  | @link ts t us r e e' cs h _ _ _ ih =>
    have hfirst := h.readFrom (List.Subset.trans (List.subset_append_left _ _) hsub)
    obtain ⟨hsecond, hrest⟩ := ih fun u hu => hsub (List.mem_append_right _ (List.mem_cons_of_mem _ hu))
    refine ⟨hfirst, List.forall_mem_cons.2 ⟨?_, hrest⟩⟩
    simp only [Comparison.exprs, List.forall_mem_cons]
    exact ⟨hfirst, hsecond, by simp⟩

theorem IsGuard.guarded (h : IsGuard params us cs) (hsub : us ⊆ tokens) : Guarded params tokens cs := by
  obtain ⟨parts, chains, hparts, hchains, rfl⟩ := h
  have hall : ∀ chain ∈ chains, Guarded params tokens chain := by
    intro chain hchain
    obtain ⟨part, hpart, hne, e, hread⟩ := exists_of_forall₂ hchains hchain
    exact ⟨hne, (hread.readFrom (List.Subset.trans (hparts.subset part hpart) hsub)).2⟩
  constructor
  · cases hchains with
    | nil => exact absurd rfl hparts.ne_nil
    | cons hchain => exact List.append_ne_nil_of_left_ne_nil hchain.1 _
  · intro c hc
    obtain ⟨chain, hchain, hc⟩ := List.mem_flatten.1 hc
    exact (hall chain hchain).2 c hc

theorem IsClause.isRead {c : Clause} (h : IsClause params piece c) (hpiece : piece ⊆ tokens) :
    c.IsRead params tokens := by
  obtain ⟨value, opener, guard, rfl, -, -, hvalue, hguard⟩ := h
  have hsub : guard ⊆ tokens := fun t ht => hpiece (List.mem_append_right _ (List.mem_cons_of_mem _ ht))
  obtain ⟨hne, hall⟩ := hguard.guarded hsub
  refine ⟨hne, ?_⟩
  intro e he
  rcases List.mem_append.1 he with he | he
  · obtain ⟨c, hc, he⟩ := List.mem_flatMap.1 he
    exact hall c hc e he
  · rw [List.mem_singleton.1 he]
    exact hvalue.readFrom (List.Subset.trans (List.subset_append_left _ _) hpiece)

theorem IsBody.readFrom (h : IsBody params piece e) (hpiece : piece ⊆ tokens) : ReadFrom params tokens e := by
  obtain ⟨-, ts, hts, rfl | ⟨t, -, rfl⟩⟩ := h
  · exact hts.readFrom hpiece
  · exact hts.readFrom (List.Subset.trans (List.subset_append_left _ _) hpiece)

end

/-! ## Definitions -/

/-- what reading a definition from the tokens makes sure of -/
structure Declaration.IsRead (tokens : List Token) (d : Declaration) : Prop where
  name : ∃ t ∈ tokens, t.kind = .identifier ∧ t.text = d.name
  params : d.params = numbered 0 d.paramNames
  nodup : d.paramNames.Nodup
  paramName : ∀ name ∈ d.paramNames, ∃ t ∈ tokens, t.kind = .identifier ∧ t.text = name
  guarded : ∀ c ∈ d.clauses, c.guard ≠ []
  expr : ∀ e ∈ d.exprs, ReadFrom d.params tokens e

/-- **A definition that is read** has numbered parameters with different names, guards with comparisons, and expressions
that are read from the tokens. -/
theorem Declaration.isRead_of_ofTokens {tokens : List Token} {d : Declaration}
    (h : Declaration.ofTokens tokens = .ok d) : d.IsRead tokens := by
  obtain ⟨head, names, rest, ps, before, piece, after, rfl, hhead, hparams, hsep, hps, hbody, hclauses⟩ :=
    isDefinition_of_ofTokens h
  have hpiece : ∀ p ∈ before ++ piece :: after, p ⊆ head ++ rest := by
    intro p hp
    rw [← hps] at hp
    exact List.Subset.trans (hsep.subset p (List.mem_of_mem_filter hp)) (List.subset_append_right _ _)
  have hnames : d.paramNames = names := by rw [Declaration.paramNames, hparams, map_name_numbered]
  have hclause : ∀ c ∈ d.clauses, c.IsRead d.params (head ++ rest) := by
    intro c hc
    obtain ⟨p, hp, hread⟩ := exists_of_forall₂ hclauses hc
    refine hread.isRead (hpiece p ?_)
    rcases List.mem_append.1 hp with hp | hp
    · exact List.mem_append_left _ hp
    · exact List.mem_append_right _ (List.mem_cons_of_mem _ hp)
  obtain ⟨⟨n, o, us, c, eq, rfl, hn, hname, -, hlisted, -⟩, hnodup⟩ := hhead
  constructor
  case name => exact ⟨n, by simp, hn, hname⟩
  case params => rw [hnames, hparams]
  case nodup => rwa [hnames]
  case paramName =>
    intro name hmem
    rw [hnames] at hmem
    rcases hlisted with hlisted | ⟨rfl, -⟩
    · obtain ⟨t, ht, h⟩ := exists_of_listed hlisted name hmem
      exact ⟨t, by simp [ht], h⟩
    · cases hmem
  case guarded => exact fun c hc => (hclause c hc).1
  case expr =>
    intro e he
    rcases List.mem_append.1 he with he | he
    · obtain ⟨c, hc, he⟩ := List.mem_flatMap.1 he
      exact (hclause c hc).2 e he
    · rw [List.mem_singleton.1 he]
      exact hbody.readFrom (hpiece piece (by simp))

section

variable {tokens : List Token} {d : Declaration} {e : Expr}

/-- **Every node of a definition was written** by one of its tokens. -/
theorem Declaration.IsRead.written (h : d.IsRead tokens) (he : e ∈ d.exprs) :
    ∀ n ∈ e.nodes, Grammar.Written d.params tokens n := by
  obtain ⟨us, stop, hsub, hread⟩ := h.expr e he
  obtain ⟨hphrase, -⟩ := Grammar.phrase_of_ofTokens hread
  exact fun n hn => (hphrase.written n hn).mono hsub

theorem Declaration.IsRead.height_le (h : d.IsRead tokens) (he : e ∈ d.exprs) : e.height ≤ depthLimit := by
  obtain ⟨us, stop, -, hread⟩ := h.expr e he
  exact (Grammar.phrase_of_ofTokens hread).2

end

end ComplexFormula

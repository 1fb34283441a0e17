/-
The faults of a definition. Apart from those of its expressions they are faults of grammar, reported at the beginning of
the source or where one of its tokens begins or ends. Whatever part of the tokens is read, the place where it ends is
the end of its last token, or that of the part that it was cut from if nothing is left of it.

- `endOf_place`: the end of some of the tokens.
- `Fault.Admits`: the faults of expressions and those of grammar at such places are all of some kind.
- `readHead_endsIn`, `readGuard_endsIn`, `readPieces_endsIn`: the parts of a definition.
- `Declaration.endsIn_of_admits`: then so are the faults of the definition.
- `Declaration.ofTokens_endsIn`: **faults point into the tokens** of a definition.
- `Declaration.exists_ofTokens_tooDeep`: a fault of depth is that of one of the expressions.
-/
import ComplexFormula.Proofs.Definition.Cutting
import ComplexFormula.Proofs.Definition.Header
import ComplexFormula.Proofs.Grammar.Faults

namespace ComplexFormula

variable {tokens ts : List Token} {t : Token} {stop : Nat}

/-- tokens end where the last of them does -/
theorem endOf_place (hts : ts ⊆ tokens) (hstop : Place tokens stop) : Place tokens (endOf ts stop) := by
  unfold endOf
  cases hlast : ts.getLast? with
  | none => exact hstop
  | some t => exact .stop (hts (List.mem_of_getLast? hlast))

/-! ## Faults of some kind -/

/-- the faults of expressions that are read from some of the tokens, and faults of grammar that do not come from
expressions alone at places of the tokens, are of the kind -/
structure Fault.Admits (tokens : List Token) (q : Fault → Prop) : Prop where
  grammar : ∀ {g pos}, g ≠ .tooDeep → Place tokens pos → q (.grammar g pos)
  expr : ∀ params {ts stop}, ts ⊆ tokens → Place tokens stop → EndsIn q Whatever (Expr.ofTokens params stop ts)

section

variable {q : Fault → Prop} (hq : Fault.Admits tokens q) (params : List Param)

include hq

/-! ## Heads -/

theorem expect_endsIn (kind : Token.Kind) (due : HeadPart) (hts : ts ⊆ tokens) (hstop : Place tokens stop) :
    EndsIn q (fun p => p.2 ⊆ tokens) (expect kind due stop ts) := by
  cases ts with
  | nil => exact .error (hq.grammar (by simp) hstop)
  | cons t ts =>
    obtain ⟨ht, hrest⟩ := List.cons_subset.1 hts
    rw [expect]
    split
    · exact .ok hrest
    · exact .error (hq.grammar (by simp) (.start ht))

theorem readParams_endsIn (done : List Param) (hts : ts ⊆ tokens) (hstop : Place tokens stop) :
    EndsIn q (fun p => p.2 ⊆ tokens) (readParams stop done ts) := by
  fun_induction readParams stop done ts with
  | case1 => exact .error (hq.grammar (by simp) hstop)
  | case2 | case3 => exact .error (hq.grammar (by simp) (.start (List.cons_subset.1 hts).1))
  | case4 => exact .error (hq.grammar (by simp) hstop)
  | case5 => exact .ok (List.cons_subset.1 (List.cons_subset.1 hts).2).2
  | case6 _ _ _ _ _ _ _ _ _ ih => exact ih (List.cons_subset.1 (List.cons_subset.1 hts).2).2
  | case7 => exact .error (hq.grammar (by simp) (.start (List.cons_subset.1 (List.cons_subset.1 hts).2).1))

theorem readBracketed_endsIn (hts : ts ⊆ tokens) (hstop : Place tokens stop) :
    EndsIn q (fun p => p.2 ⊆ tokens) (readBracketed stop ts) := by
  cases ts with
  | nil => exact readParams_endsIn hq [] hts hstop
  | cons t ts =>
    rw [readBracketed]
    split
    · exact .ok (List.cons_subset.1 hts).2
    · exact readParams_endsIn hq [] hts hstop

theorem readHead_endsIn (hts : ts ⊆ tokens) (hstop : Place tokens stop) :
    EndsIn q (fun p => p.2.2 ⊆ tokens) (readHead stop ts) := by
  rw [readHead_eq]
  refine (expect_endsIn hq _ _ hts hstop).bind fun n hn => ?_
  refine (expect_endsIn hq _ _ hn hstop).bind fun o ho => ?_
  refine (readBracketed_endsIn hq ho hstop).bind fun p hp => ?_
  exact (expect_endsIn hq _ _ hp hstop).bind fun eq heq => .ok heq

/-! ## Guards -/

theorem relationOf_endsIn (ht : t ∈ tokens) : EndsIn q Whatever (relationOf t) := by
  unfold relationOf
  split
  · exact .ok trivial
  · exact .error (hq.grammar (by simp) (.start ht))

/-- an operand in front of a relation ends where the relation begins -/
theorem readChain_endsIn {first : List Token} {others : List (Token × List Token)} (hfirst : first ⊆ tokens)
    (hothers : ∀ p ∈ others, p.1 ∈ tokens ∧ p.2 ⊆ tokens) (hstop : Place tokens stop) :
    EndsIn q Whatever (readChain params stop first others) := by
  induction others generalizing first with
  | nil => exact (hq.expr params hfirst hstop).bind fun _ _ => .ok trivial
  | cons p others ih =>
    obtain ⟨⟨ht, hnext⟩, hothers⟩ := List.forall_mem_cons.1 hothers
    refine (relationOf_endsIn hq ht).bind fun r _ => ?_
    refine (hq.expr params hfirst (.start ht)).bind fun e _ => ?_
    exact (ih hnext hothers).bind fun _ _ => .ok trivial

theorem readComparisons_endsIn (hts : ts ⊆ tokens) (hstop : Place tokens stop) :
    EndsIn q Whatever (readComparisons params stop ts) := by
  obtain ⟨hfirst, hothers⟩ := (parted_split isRelation ts).subset
  have hmem := (parted_split isRelation ts).mem
  unfold readComparisons
  generalize split isRelation ts = parts at hfirst hothers hmem ⊢
  obtain ⟨first, others⟩ := parts
  cases others with
  | nil =>
    cases ts with
    | nil => exact .error (hq.grammar (by simp) hstop)
    | cons t ts => exact .error (hq.grammar (by simp) (.start (List.cons_subset.1 hts).1))
  | cons p others =>
    have hlinks : ∀ r ∈ p :: others, r.1 ∈ tokens ∧ r.2 ⊆ tokens := fun r hr =>
      ⟨hts (hmem r hr), List.Subset.trans (hothers r hr) hts⟩
    have hchain := readChain_endsIn hq params (List.Subset.trans hfirst hts) hlinks (endOf_place hts hstop)
    exact hchain.bind fun _ _ => .ok trivial

theorem readGuard_endsIn (hts : ts ⊆ tokens) (hstop : Place tokens stop) :
    EndsIn q Whatever (readGuard params stop ts) := by
  have hchains : ∀ p ∈ pieces (·.is .keyword "and") ts, EndsIn q Whatever (readComparisons params stop p) :=
    fun p hp => readComparisons_endsIn hq params (List.Subset.trans (subset_of_mem_pieces hp) hts) hstop
  exact (EndsIn.mapM hchains).bind fun _ _ => .ok trivial

/-! ## Pieces -/

theorem readClause_endsIn {value guard : List Token} (hvalue : value ⊆ tokens) (ht : t ∈ tokens)
    (hguard : guard ⊆ tokens) (hstop : Place tokens stop) :
    EndsIn q Whatever (readClause params stop value t guard) := by
  refine (hq.expr params hvalue (.start ht)).bind fun e _ => ?_
  exact (readGuard_endsIn hq params hguard hstop).bind fun _ _ => .ok trivial

theorem readBody_endsIn (hts : ts ⊆ tokens) (hstop : Place tokens stop) :
    EndsIn q Whatever (readBody params stop ts) := by
  have hpiece : withoutOtherwise ts ⊆ tokens := by
    unfold withoutOtherwise
    split
    · exact List.Subset.trans (List.dropLast_subset ts) hts
    · exact hts
  exact hq.expr params hpiece (endOf_place hpiece hstop)

theorem readPieces_endsIn (body? : Option Expr) (done : List Clause) {ps : List (List Token)}
    (hps : ∀ p ∈ ps, p ⊆ tokens) (hstop : Place tokens stop) :
    EndsIn q Whatever (readPieces params stop body? done ps) := by
  induction ps generalizing body? done with
  | nil =>
    cases body? with
    | none => exact .error (hq.grammar (by simp) hstop)
    | some body => exact .ok trivial
  | cons p ps ih =>
    obtain ⟨hp, hrest⟩ := List.forall_mem_cons.1 hps
    cases p with
    | nil => exact ih body? done hrest
    | cons t ts =>
      have ht : t ∈ tokens := (List.cons_subset.1 hp).1
      unfold readPieces
      split
      case h_1 value opener guard hsplit =>
        obtain ⟨hvalue, hopener, hguard⟩ := subset_of_splitIf? hsplit
        have hclause := readClause_endsIn hq params (List.Subset.trans hvalue hp) (hp hopener)
          (List.Subset.trans hguard hp) (endOf_place hp hstop)
        split
        case h_1 fault hfault => exact .error (hfault ▸ hclause).of_error
        case h_2 clause _ => exact ih body? (clause :: done) hrest
      case h_2 =>
        split
        case h_1 => exact .error (hq.grammar (by simp) (.start ht))
        case h_2 =>
          have hbody := readBody_endsIn hq params hp (.start ht)
          split
          case h_1 fault hfault => exact .error (hfault ▸ hbody).of_error
          case h_2 body _ => exact ih (some body) done hrest

/-- the faults of a definition are of any kind that admits them -/
theorem Declaration.endsIn_of_admits : EndsIn q Whatever (Declaration.ofTokens tokens) := by
  have hstop : Place tokens (endOf tokens 0) := endOf_place (List.Subset.refl tokens) (.inl rfl)
  refine (readHead_endsIn hq (List.Subset.refl tokens) hstop).bind ?_
  intro ⟨name, params, rest⟩ hrest
  have hps : ∀ p ∈ pieces (·.kind == .semicolon) rest, p ⊆ tokens := fun p hp =>
    List.Subset.trans (subset_of_mem_pieces hp) hrest
  exact (readPieces_endsIn hq params none [] hps hstop).bind fun _ _ => .ok trivial

end

/-! ## Definitions -/

theorem Fault.admits_pointsInto (tokens : List Token) : Admits tokens (PointsInto tokens) where
  grammar _ hpos := hpos
  expr params _ _ hts hstop := ofTokens_endsIn params hts hstop

/-- **Faults point into the tokens** of a definition. -/
theorem Declaration.ofTokens_endsIn (tokens : List Token) :
    EndsInto tokens Whatever (Declaration.ofTokens tokens) :=
  Declaration.endsIn_of_admits (Fault.admits_pointsInto tokens)

/-- a fault of depth is that of an expression that is read from some of the tokens -/
def Fault.OfExpr (tokens : List Token) : Fault → Prop
  | .grammar .tooDeep pos =>
    ∃ params stop ts, ts ⊆ tokens ∧ Expr.ofTokens params stop ts = .error (.grammar .tooDeep pos)
  | _ => True

theorem Fault.admits_ofExpr (tokens : List Token) : Admits tokens (OfExpr tokens) where
  grammar hg _ := by
    unfold OfExpr
    split
    case h_1 heq => exact absurd (Fault.grammar.inj heq).1 hg
    case h_2 => trivial
  expr params ts stop hts _ := by
    cases hread : Expr.ofTokens params stop ts with
    | ok e => exact .ok trivial
    | error fault =>
      refine .error ?_
      unfold OfExpr
      split
      case h_1 => exact ⟨params, stop, ts, hts, hread⟩
      case h_2 => trivial

/-- a definition fails for its depth only where one of its expressions does -/
theorem Declaration.exists_ofTokens_tooDeep {pos : Nat}
    (h : Declaration.ofTokens tokens = .error (.grammar .tooDeep pos)) :
    ∃ params stop ts, ts ⊆ tokens ∧ Expr.ofTokens params stop ts = .error (.grammar .tooDeep pos) :=
  (Declaration.endsIn_of_admits (Fault.admits_ofExpr tokens)).of_eq_error h

end ComplexFormula

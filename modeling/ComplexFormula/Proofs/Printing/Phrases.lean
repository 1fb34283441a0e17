/-
Tokens with the lexemes of a printed expression are an atom of the grammar, with the tree that was printed.

- `Expr.Parsable`: what the kinds of names have to be.
- `phrase_of_lexemes`: a printed expression is an atom.
- `Reparses.ofTokens`: it is accepted with its tree, if that is not too high.
- `Reparses.inner`: none of its lexemes separates the parts of a definition.
-/
import ComplexFormula.Proofs.Grammar.Completeness
import ComplexFormula.Proofs.Printing.Lexemes

namespace ComplexFormula

open Grammar

variable {params : List Param} {kind : String → Token.Kind}

/-! ## Lexemes of tokens -/

/-- tokens with one more lexeme in front -/
theorem map_lexeme_cons {ts : List Token} {l : Lexeme} {ls : List Lexeme} (h : ts.map Token.lexeme = l :: ls) :
    ∃ t us, ts = t :: us ∧ t.kind = l.kind ∧ t.text = l.text ∧ us.map Token.lexeme = ls := by
  obtain ⟨t, us, rfl, rfl, hus⟩ := List.map_eq_cons_iff.1 h
  exact ⟨t, us, rfl, rfl, rfl, hus⟩

theorem map_lexeme_singleton {ts : List Token} {l : Lexeme} (h : ts.map Token.lexeme = [l]) :
    ∃ t, ts = [t] ∧ t.kind = l.kind ∧ t.text = l.text := by
  obtain ⟨t, us, rfl, hk, htext, hus⟩ := map_lexeme_cons h
  obtain rfl := List.map_eq_nil_iff.1 hus
  exact ⟨t, rfl, hk, htext⟩

theorem intercalate_cons {α : Type} (sep x : List α) (xs : List (List α)) :
    sep.intercalate (x :: xs) = x ++ xs.flatMap fun y => sep ++ y := by
  induction xs generalizing x with
  | nil => simp
  | cons y ys ih => rw [List.intercalate_cons_cons, ih, List.flatMap_cons, List.append_assoc, List.append_assoc]

theorem mem_intercalate {α : Type} {a : α} {sep : List α} {xs : List (List α)} (h : a ∈ sep.intercalate xs) :
    a ∈ sep ∨ ∃ x ∈ xs, a ∈ x := by
  cases xs with
  | nil => simp at h
  | cons x xs =>
    rw [intercalate_cons, List.mem_append, List.mem_flatMap] at h
    rcases h with h | ⟨y, hy, h⟩
    · exact .inr ⟨x, List.mem_cons_self, h⟩
    · rcases List.mem_append.1 h with h | h
      · exact .inl h
      · exact .inr ⟨y, List.mem_cons_of_mem x hy, h⟩

/-! ## Expressions -/

/-- what has to hold of a node for its lexemes to be parsed as it was written -/
def Expr.Parsable (params : List Param) (kind : String → Token.Kind) : Expr → Prop
  | .number x => Decimal.read? (Decimal.text x) = some x
  | .param name index => kind name = .identifier ∧ params.find? (·.name == name) = some ⟨name, index⟩
  | .constant name => kind name = .identifier ∧ (∀ p ∈ params, p.name ≠ name) ∨ kind name = .constant
  | .unary op _ => op ∈ ["neg", "fac", "abs"]
  | .binary op _ _ => op ∈ ["add", "sub", "mul", "div", "mod", "pow"]
  | .call _ _ => True

/-- tokens with the lexemes of the expression are an atom, whether or not directly inside of bars -/
def IsAtom (params : List Param) (kind : String → Token.Kind) (e : Expr) : Prop :=
  ∀ ts bars, ts.map Token.lexeme = e.lexemes kind → Phrase params .atom bars ts e

theorem Grammar.Phrase.signed_of_atom {bars : Bool} {ts : List Token} {e : Expr} (h : Phrase params .atom bars ts e) :
    Phrase params .signed bars ts e := .lift rfl (.lift rfl (.lift rfl h))

theorem Grammar.Phrase.sum_of_signed {bars : Bool} {ts : List Token} {e : Expr} (h : Phrase params .signed bars ts e) :
    Phrase params .sum bars ts e := .lift rfl (.lift rfl h)

theorem isAtom_unary {op : String} {a : Expr} (hop : op ∈ ["neg", "fac", "abs"]) (ha : IsAtom params kind a) :
    IsAtom params kind (.unary op a) := by
  intro ts bars hts
  simp only [List.mem_cons, List.not_mem_nil, or_false] at hop
  rcases hop with rfl | rfl | rfl
  · obtain ⟨o, ts, rfl, ho, -, hts⟩ := map_lexeme_cons hts
    obtain ⟨m, ts, rfl, hm, hmtext, hts⟩ := map_lexeme_cons hts
    obtain ⟨us, vs, rfl, hus, hvs⟩ := List.map_eq_append_iff.1 hts
    obtain ⟨c, rfl, hc, -⟩ := map_lexeme_singleton hvs
    exact .group ho ((Phrase.minus ⟨hm, hmtext⟩ (ha us false hus).signed_of_atom).sum_of_signed) hc
  · obtain ⟨o, ts, rfl, ho, -, hts⟩ := map_lexeme_cons hts
    obtain ⟨us, vs, rfl, hus, hvs⟩ := List.map_eq_append_iff.1 hts
    obtain ⟨m, vs, rfl, hm, hmtext, hvs⟩ := map_lexeme_cons hvs
    obtain ⟨c, rfl, hc, -⟩ := map_lexeme_singleton hvs
    have hfac : Phrase params .postfixed false (us ++ [m]) (.unary "fac" a) :=
      .factorial (.lift rfl (ha us false hus)) ⟨hm, hmtext⟩
    have hgroup : Phrase params .atom bars (o :: (us ++ [m]) ++ [c]) (.unary "fac" a) :=
      .group ho (Phrase.sum_of_signed (.lift rfl (.lift rfl hfac))) hc
    simpa using hgroup
  · obtain ⟨o, ts, rfl, ho, -, hts⟩ := map_lexeme_cons hts
    obtain ⟨us, vs, rfl, hus, hvs⟩ := List.map_eq_append_iff.1 hts
    obtain ⟨c, rfl, hc, -⟩ := map_lexeme_singleton hvs
    exact .modulus ho (ha us true hus).signed_of_atom.sum_of_signed hc

/-- atoms with an operator between them are a sum, whatever the operator -/
theorem sum_of_binary {op : String} {a b : Expr} {ts us : List Token} {t : Token}
    (hop : op ∈ ["add", "sub", "mul", "div", "mod", "pow"]) (ha : Phrase params .atom false ts a)
    (ht : t.lexeme = Expr.binaryLexeme op) (hb : Phrase params .atom false us b) :
    Phrase params .sum false (ts ++ t :: us) (.binary op a b) := by
  have hsign : ∀ text, t.lexeme = .sign text → IsOperator t text := by
    intro text h
    exact ⟨congrArg Lexeme.kind h, congrArg Lexeme.text h⟩
  have hproduct : ∀ op, ProductSign t op → Phrase params .sum false (ts ++ t :: us) (.binary op a b) := fun op h =>
    .lift rfl (.product (.lift rfl ha.signed_of_atom) h hb.signed_of_atom)
  simp only [List.mem_cons, List.not_mem_nil, or_false] at hop
  rcases hop with rfl | rfl | rfl | rfl | rfl | rfl
  · exact .sum ha.signed_of_atom.sum_of_signed (.inl ⟨hsign "+" ht, rfl⟩) (.lift rfl hb.signed_of_atom)
  · exact .sum ha.signed_of_atom.sum_of_signed (.inr ⟨hsign "-" ht, rfl⟩) (.lift rfl hb.signed_of_atom)
  · exact hproduct "mul" (.inl ⟨hsign "*" ht, rfl⟩)
  · exact hproduct "div" (.inr (.inl ⟨hsign "/" ht, rfl⟩))
  · have hmod : IsMod t := ⟨.inl (congrArg Lexeme.kind ht), congrArg Lexeme.text ht⟩
    exact hproduct "mod" (.inr (.inr ⟨.inr hmod, rfl⟩))
  · exact Phrase.sum_of_signed (.lift rfl (.power (.lift rfl ha) (hsign "^" ht) hb.signed_of_atom))

theorem isAtom_binary {op : String} {a b : Expr} (hop : op ∈ ["add", "sub", "mul", "div", "mod", "pow"])
    (ha : IsAtom params kind a) (hb : IsAtom params kind b) : IsAtom params kind (.binary op a b) := by
  intro ts bars hts
  simp only [Expr.lexemes, List.append_assoc, List.cons_append, List.nil_append] at hts
  obtain ⟨o, ts, rfl, ho, -, hts⟩ := map_lexeme_cons hts
  obtain ⟨us, ts, rfl, hus, hts⟩ := List.map_eq_append_iff.1 hts
  obtain ⟨t, ts, rfl, hk, htext, hts⟩ := map_lexeme_cons hts
  obtain ⟨vs, ws, rfl, hvs, hws⟩ := List.map_eq_append_iff.1 hts
  obtain ⟨c, rfl, hc, -⟩ := map_lexeme_singleton hws
  have hlexeme : t.lexeme = Expr.binaryLexeme op := by
    rw [Token.lexeme, hk, htext]
  have hsum := sum_of_binary hop (ha us false hus) hlexeme (hb vs false hvs)
  have hgroup : Phrase params .atom bars (o :: (us ++ t :: vs) ++ [c]) (.binary op a b) := .group ho hsum hc
  simpa using hgroup

/-- further arguments of a call, each behind a comma -/
theorem openCall_of_lexemes {as : List Expr} (has : ∀ a ∈ as, IsAtom params kind a) {name : String} {bars : Bool}
    {done : List Expr} {us ts : List Token} (hcall : Phrase params .openCall bars us (.call name done))
    (hts : ts.map Token.lexeme = as.flatMap fun a => [.comma] ++ a.lexemes kind) :
    Phrase params .openCall bars (us ++ ts) (.call name (done ++ as)) := by
  induction as generalizing done us ts with
  | nil =>
    obtain rfl := List.map_eq_nil_iff.1 hts
    simpa using hcall
  | cons a as ih =>
    simp only [List.flatMap_cons, List.cons_append, List.nil_append] at hts
    obtain ⟨c, ts, rfl, hc, -, hts⟩ := map_lexeme_cons hts
    obtain ⟨vs, ts, rfl, hvs, hts⟩ := List.map_eq_append_iff.1 hts
    have ha := has a List.mem_cons_self vs false hvs
    have hnext := hcall.nextArgument hc ha.signed_of_atom.sum_of_signed
    simpa using ih (fun b hb => has b (List.mem_cons_of_mem a hb)) hnext hts

theorem isAtom_call {name : String} {as : List Expr} (has : ∀ a ∈ as, IsAtom params kind a) :
    IsAtom params kind (.call name as) := by
  intro ts bars hts
  simp only [Expr.lexemes, Expr.lexemesAll_eq_map, List.cons_append, List.nil_append] at hts
  obtain ⟨f, ts, rfl, hf, hftext, hts⟩ := map_lexeme_cons hts
  obtain ⟨o, ts, rfl, ho, -, hts⟩ := map_lexeme_cons hts
  obtain ⟨us, vs, rfl, hus, hvs⟩ := List.map_eq_append_iff.1 hts
  obtain ⟨c, rfl, hc, -⟩ := map_lexeme_singleton hvs
  obtain rfl : f.text = name := hftext
  cases as with
  | nil =>
    obtain rfl := List.map_eq_nil_iff.1 hus
    exact .emptyCall hf ho hc
  | cons a as =>
    rw [List.map_cons, intercalate_cons, List.flatMap_map] at hus
    obtain ⟨ws, us, rfl, hws, hus⟩ := List.map_eq_append_iff.1 hus
    have ha := has a List.mem_cons_self ws false hws
    have hfirst : Phrase params .openCall bars (f :: o :: ws) (.call f.text [a]) :=
      .firstArgument hf ho ha.signed_of_atom.sum_of_signed
    have hall := openCall_of_lexemes (fun b hb => has b (List.mem_cons_of_mem a hb)) hfirst hus
    simpa using hall.call hc

/-- **A printed expression is an atom** with the tree that was printed. -/
theorem phrase_of_lexemes {e : Expr} (h : ∀ n ∈ e.nodes, n.Parsable params kind) : IsAtom params kind e := by
  induction e using Expr.induct with
  | number x =>
    intro ts bars hts
    obtain ⟨t, rfl, hk, htext⟩ := map_lexeme_singleton hts
    refine .number hk ?_
    rw [htext]
    exact h _ (List.mem_singleton_self _)
  | param name index =>
    intro ts bars hts
    obtain ⟨t, rfl, hk, htext⟩ := map_lexeme_singleton hts
    obtain ⟨hkind, hfind⟩ := h _ (List.mem_singleton_self _)
    exact .param (hk.trans hkind) (by rw [htext]; exact hfind)
  | constant name =>
    intro ts bars hts
    obtain ⟨t, rfl, hk, htext⟩ := map_lexeme_singleton hts
    obtain rfl : t.text = name := htext
    rcases h _ (List.mem_singleton_self _) with ⟨hkind, hparams⟩ | hkind
    · exact .name (hk.trans hkind) hparams
    · exact .constant (hk.trans hkind)
  | unary op a ih =>
    rw [Expr.nodes, List.forall_mem_append] at h
    exact isAtom_unary (h.2 _ (List.mem_singleton_self _)) (ih h.1)
  | binary op a b iha ihb =>
    rw [Expr.nodes, List.forall_mem_append, List.forall_mem_append] at h
    exact isAtom_binary (h.2 _ (List.mem_singleton_self _)) (iha h.1.1) (ihb h.1.2)
  | call name as ih =>
    rw [Expr.nodes, List.forall_mem_append, Expr.nodesAll_eq_flatMap] at h
    exact isAtom_call fun a ha => ih a ha fun n hn => h.1 n (List.mem_flatMap.2 ⟨a, ha, hn⟩)

/-- the tokens of the printed expression are accepted with its tree -/
def Reparses (params : List Param) (kind : String → Token.Kind) (e : Expr) : Prop :=
  (∀ n ∈ e.nodes, n.Parsable params kind) ∧ e.height ≤ depthLimit

theorem Reparses.ofTokens {e : Expr} (h : Reparses params kind e) {ts : List Token}
    (hts : ts.map Token.lexeme = e.lexemes kind) (stop : Nat) : Expr.ofTokens params stop ts = .ok e :=
  ofTokens_of_phrase (phrase_of_lexemes h.1 ts false hts).signed_of_atom.sum_of_signed h.2 stop

/-! ## Lexemes inside of expressions -/

/-- the lexeme separates neither clauses nor guards nor a guard from its value -/
def Lexeme.IsChained (l : Lexeme) : Prop := l.kind ≠ .semicolon ∧ (l.kind = .keyword → l.text = "mod")

/-- the lexeme does not separate the sides of a comparison either -/
def Lexeme.IsInner (l : Lexeme) : Prop := l.IsChained ∧ l.kind ≠ .equals ∧ l.kind ≠ .comparison

/-- tokens of these lexemes, all of them at the beginning of the source -/
theorem map_lexeme_mk (ls : List Lexeme) : (ls.map fun l => Token.mk l.kind l.text 0 0).map Token.lexeme = ls := by
  rw [List.map_map]
  exact List.map_id ls

theorem inner_lexemes {e : Expr} (h : ∀ n ∈ e.nodes, n.Parsable params kind) : ∀ l ∈ e.lexemes kind, l.IsInner := by
  intro l hl
  have hphrase := phrase_of_lexemes h _ false (map_lexeme_mk (e.lexemes kind))
  obtain ⟨hcomparison, hequals, hsemicolon, hkeyword⟩ := hphrase.inner _ (List.mem_map_of_mem hl)
  exact ⟨⟨hsemicolon, hkeyword⟩, hequals, hcomparison⟩

/-- no token of a printed expression separates parts of a definition -/
theorem Reparses.inner {e : Expr} (h : Reparses params kind e) {ts : List Token}
    (hts : ts.map Token.lexeme = e.lexemes kind) : ∀ t ∈ ts, t.lexeme.IsInner :=
  fun _ ht => inner_lexemes h.1 _ (hts ▸ List.mem_map_of_mem ht)

theorem Reparses.ne_nil {e : Expr} (h : Reparses params kind e) {ts : List Token}
    (hts : ts.map Token.lexeme = e.lexemes kind) : ts ≠ [] :=
  (phrase_of_lexemes h.1 ts false hts).ne_nil

end ComplexFormula

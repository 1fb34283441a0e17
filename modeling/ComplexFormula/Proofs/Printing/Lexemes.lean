/-
The printed text of expressions and definitions, as lexemes, and the proof that it is cut into them.

- `Expr.lexemes`, `Declaration.lexemes`: what is printed, lexeme by lexeme.
- `Expr.Printable`: the names are legible and the numbers can be read.
- `cuts_expr`, `cuts_declaration`: the text is cut into the lexemes.
-/
import ComplexFormula.Declaration.Basic
import ComplexFormula.Proofs.Scanning.Lexicon
import ComplexFormula.Proofs.Tree

namespace ComplexFormula

/-! ## Lexemes -/

namespace Lexeme

def openParen : Lexeme := ⟨.leftParen, "("⟩

def closeParen : Lexeme := ⟨.rightParen, ")"⟩

def comma : Lexeme := ⟨.comma, ","⟩

def bar : Lexeme := ⟨.bar, "|"⟩

def semicolon : Lexeme := ⟨.semicolon, ";"⟩

def equals : Lexeme := ⟨.equals, "="⟩

def sign (text : String) : Lexeme := ⟨.operator, text⟩

def keyword (text : String) : Lexeme := ⟨.keyword, text⟩

end Lexeme

namespace Expr

/-- the operator between two operands; `mod` is a word -/
def binaryLexeme (op : String) : Lexeme := if op = "mod" then .keyword "mod" else .sign (binarySymbol op)

/-- an operation applied to its printed operand -/
def unaryLexemes (op : String) (operand : List Lexeme) : List Lexeme :=
  match op with
  | "neg" => [.openParen, .sign "-"] ++ operand ++ [.closeParen]
  | "fac" => [.openParen] ++ operand ++ [.sign "!", .closeParen]
  | "abs" => [.bar] ++ operand ++ [.bar]
  | _ => [⟨.function, op⟩, .openParen] ++ operand ++ [.closeParen]

mutual

/-- the expression as printed; `kind` tells the kinds of parameters and constants -/
def lexemes (kind : String → Token.Kind) : Expr → List Lexeme
  | .number x => [⟨.number, Decimal.text x⟩]
  | .param name _ => [⟨kind name, name⟩]
  | .constant name => [⟨kind name, name⟩]
  | .unary op a => unaryLexemes op (a.lexemes kind)
  | .binary op a b => [.openParen] ++ a.lexemes kind ++ [binaryLexeme op] ++ b.lexemes kind ++ [.closeParen]
  | .call name args => [⟨.function, name⟩, .openParen] ++ [.comma].intercalate (lexemesAll kind args) ++ [.closeParen]

/-- the operands of a call as printed -/
def lexemesAll (kind : String → Token.Kind) : List Expr → List (List Lexeme)
  | [] => []
  | a :: as => a.lexemes kind :: lexemesAll kind as

end

theorem lexemesAll_eq_map (kind : String → Token.Kind) (as : List Expr) :
    lexemesAll kind as = as.map (lexemes kind) := by
  induction as with
  | nil => rfl
  | cons a as ih => rw [lexemesAll, ih, List.map_cons]

end Expr

def Comparison.lexemes (kind : String → Token.Kind) (c : Comparison) : List Lexeme :=
  c.left.lexemes kind ++ [⟨.comparison, c.relation.symbol⟩] ++ c.right.lexemes kind

def Clause.lexemes (kind : String → Token.Kind) (c : Clause) : List Lexeme :=
  c.value.lexemes kind ++ [.keyword "if"] ++ [.keyword "and"].intercalate (c.guard.map (Comparison.lexemes kind))

/-- the head of a definition, up to the equals sign -/
def Declaration.headLexemes (kind : String → Token.Kind) (d : Declaration) : List Lexeme :=
  [⟨kind d.name, d.name⟩, .openParen] ++ [.comma].intercalate (d.paramNames.map fun name => [⟨kind name, name⟩]) ++
    [.closeParen, .equals]

/-- the definition as printed -/
def Declaration.lexemes (kind : String → Token.Kind) (d : Declaration) : List Lexeme :=
  d.headLexemes kind ++ d.clauses.flatMap (fun c => c.lexemes kind ++ [.semicolon]) ++ d.body.lexemes kind

/-! ## Separators -/

section

variable {words : List Word}

/-- separators begin with a character that ends names and numbers -/
theorem ends_cons {c : Char} (hc : isNameChar c = false ∧ c ≠ '.') (cs : List Char) : Ends (c :: cs) := by
  intro b hb
  obtain rfl := Option.some.inj hb
  exact hc

theorem severs_openParen : Severs words ['('] [.openParen] := severs_symbol rfl (by simp) fun _ => rfl

theorem severs_closeParen : Severs words [')'] [.closeParen] := severs_symbol rfl (by simp) fun _ => rfl

theorem severs_bar : Severs words ['|'] [.bar] := severs_symbol rfl (by simp) fun _ => rfl

theorem severs_comma : Severs words [',', ' '] [.comma] :=
  (severs_symbol rfl (by simp) fun _ => rfl : Severs words [','] [.comma]).append_severs (severs_blank rfl)

theorem severs_semicolon : Severs words [';', ' '] [.semicolon] :=
  (severs_symbol rfl (by simp) fun _ => rfl : Severs words [';'] [.semicolon]).append_severs (severs_blank rfl)

theorem severs_minus : Severs words ['(', '-'] [.openParen, .sign "-"] :=
  severs_openParen.append_severs (severs_symbol rfl (by simp) fun _ => rfl : Severs words ['-'] [.sign "-"])

theorem severs_factorial : Severs words ['!', ')'] [.sign "!", .closeParen] :=
  fun rest _ hs => @Spells.lexeme words '!' [] (')' :: rest) .operator _ rfl rfl (by simp) (severs_closeParen rest _ hs)

theorem severs_equals : Severs words [')', ' ', '=', ' '] [.closeParen, .equals] :=
  severs_closeParen.append_severs ((severs_blank rfl).append_severs
    (severs_symbol_blank rfl (by simp) fun _ => rfl : Severs words ['=', ' '] [.equals]))

/-- a word between blanks -/
theorem severs_keyword (hwords : Plain words) {name : String} (h : Legible words (.keyword name)) :
    Severs words (' ' :: name.toList ++ [' ']) [.keyword name] := by
  intro rest ls hs
  have hword := h.cuts hwords (by simp [Lexeme.keyword]) (' ' :: rest) ls (ends_cons (by decide) rest) (.blank rfl hs)
  simpa [Lexeme.keyword] using Spells.blank (c := ' ') rfl hword

/-- an operator between blanks -/
theorem severs_binary (hwords : Plain words) (hmod : Legible words (.keyword "mod")) {op : String}
    (hop : op ∈ ["add", "sub", "mul", "div", "mod", "pow"]) :
    Severs words (' ' :: (Expr.binarySymbol op).toList ++ [' ']) [Expr.binaryLexeme op] := by
  simp only [List.mem_cons, List.not_mem_nil, or_false] at hop
  have hsymbol : ∀ c, Text.isBlank c = false → (∀ cs, extent? words c cs = some (.operator, 1)) →
      Severs words [' ', c, ' '] [.sign (.ofList [c])] := fun c hc h =>
    (severs_blank rfl).append_severs ((severs_symbol hc (by simp) h).append_severs (severs_blank rfl))
  rcases hop with rfl | rfl | rfl | rfl | rfl | rfl
  · exact hsymbol '+' rfl fun _ => rfl
  · exact hsymbol '-' rfl fun _ => rfl
  · exact hsymbol '*' rfl fun _ => rfl
  · exact hsymbol '/' rfl fun _ => rfl
  · exact severs_keyword hwords hmod
  · exact hsymbol '^' rfl fun _ => rfl

/-- a relation between blanks -/
theorem severs_relation (r : Relation) :
    Severs words (' ' :: r.symbol.toList ++ [' ']) [⟨.comparison, r.symbol⟩] := by
  have hsingle : ∀ c, Text.isBlank c = false → (∀ cs, extent? words c (' ' :: cs) = some (.comparison, 1)) →
      Severs words [' ', c, ' '] [⟨.comparison, .ofList [c]⟩] := fun c hc h =>
    (severs_blank rfl).append_severs (severs_symbol_blank hc (by simp) h)
  have hdouble : ∀ c, Text.isBlank c = false → (∀ cs, extent? words c ('=' :: cs) = some (.comparison, 2)) →
      Severs words [' ', c, '=', ' '] [⟨.comparison, .ofList [c, '=']⟩] := fun c hc h =>
    (severs_blank rfl).append_severs ((severs_symbols hc (by simp) h).append_severs (severs_blank rfl))
  cases r with
  | eq => exact hdouble '=' rfl fun _ => rfl
  | ne => exact hdouble '!' rfl fun _ => rfl
  | lt => exact hsingle '<' rfl fun _ => rfl
  | le => exact hdouble '<' rfl fun _ => rfl
  | gt => exact hsingle '>' rfl fun _ => rfl
  | ge => exact hdouble '>' rfl fun _ => rfl

/-! ## Expressions -/

/-- the printed number consists of digits and points and is read as the number itself -/
def ReadsBack (x : Binary64) : Prop :=
  (Decimal.text x).toList ≠ [] ∧ (∀ c ∈ (Decimal.text x).toList, isMantissa c = true) ∧
    Decimal.read? (Decimal.text x) = some x

/-- what has to hold of a node for its text to be cut as it was written; `kind` tells how a scan takes a name -/
def Expr.Printable (words : List Word) (kind : String → Token.Kind) : Expr → Prop
  | .number x => ReadsBack x
  | .param name _ | .constant name => kind name ≠ .number ∧ Legible words ⟨kind name, name⟩
  | .unary op _ => op ∈ ["neg", "fac", "abs"]
  | .binary op _ _ => op ∈ ["add", "sub", "mul", "div", "mod", "pow"]
  | .call name _ => Legible words ⟨.function, name⟩

/-- the text of the expression is cut into its lexemes -/
def CutsExpr (words : List Word) (kind : String → Token.Kind) (e : Expr) : Prop :=
  Cuts words e.text.toList (e.lexemes kind)

variable {kind : String → Token.Kind}

theorem cuts_name {name : String} (hwords : Plain words) (hk : kind name ≠ .number)
    (h : Legible words ⟨kind name, name⟩) : Cuts words name.toList [⟨kind name, name⟩] := h.cuts hwords hk

theorem cuts_unary {op : String} {a : Expr} (hop : op ∈ ["neg", "fac", "abs"]) (ha : CutsExpr words kind a) :
    CutsExpr words kind (.unary op a) := by
  have hclose : Ends [')'] := ends_cons (by decide) _
  have hbang : Ends ['!', ')'] := ends_cons (by decide) _
  have hbar : Ends ['|'] := ends_cons (by decide) _
  simp only [List.mem_cons, List.not_mem_nil, or_false] at hop
  rcases hop with rfl | rfl | rfl
  · have h := severs_minus.append (ha.append severs_closeParen.cuts hclose (by simp))
    simpa [CutsExpr, Expr.text, Expr.unaryText, Expr.lexemes, Expr.unaryLexemes] using h
  · have h := severs_openParen.append (ha.append severs_factorial.cuts hbang (by simp))
    simpa [CutsExpr, Expr.text, Expr.unaryText, Expr.lexemes, Expr.unaryLexemes] using h
  · have h := severs_bar.append (ha.append severs_bar.cuts hbar (by simp))
    simpa [CutsExpr, Expr.text, Expr.unaryText, Expr.lexemes, Expr.unaryLexemes] using h

/-- two texts with a separator between them -/
theorem Cuts.around {cs sep cs' : List Char} {ls seps ls' : List Lexeme} (h : Cuts words cs ls)
    (hsep : Severs words (' ' :: sep) seps) (h' : Cuts words cs' ls') :
    Cuts words (cs ++ (' ' :: sep ++ cs')) (ls ++ (seps ++ ls')) :=
  h.append (hsep.append h') (ends_cons (by decide) _) (by simp)

theorem cuts_binary {op : String} {a b : Expr} (hwords : Plain words) (hmod : Legible words (.keyword "mod"))
    (hop : op ∈ ["add", "sub", "mul", "div", "mod", "pow"]) (ha : CutsExpr words kind a) (hb : CutsExpr words kind b) :
    CutsExpr words kind (.binary op a b) := by
  have hclose := hb.append severs_closeParen.cuts (ends_cons (by decide) _) (by simp)
  have h := severs_openParen.append (ha.around (severs_binary hwords hmod hop) hclose)
  simpa [CutsExpr, Expr.text, Expr.lexemes] using h

theorem cuts_call {name : String} {as : List Expr} (hwords : Plain words) (hname : Legible words ⟨.function, name⟩)
    (has : ∀ a ∈ as, CutsExpr words kind a) : CutsExpr words kind (.call name as) := by
  have hall : List.Forall₂ (Cuts words) (as.map fun a => a.text.toList) (as.map (Expr.lexemes kind)) := by
    rw [List.forall₂_map_left_iff, List.forall₂_map_right_iff, List.forall₂_same]
    exact has
  have hargs := Cuts.intercalate severs_comma (ends_cons (by decide) _) (by simp) hall
  have hclose := hargs.append severs_closeParen.cuts (ends_cons (by decide) _) (by simp)
  have hopen := severs_openParen.append hclose
  have h := (hname.cuts hwords (by simp)).append hopen (ends_cons (by decide) _) (by simp)
  simpa [CutsExpr, Expr.text, Expr.lexemes, Expr.texts_eq_map, Expr.lexemesAll_eq_map, Function.comp_def] using h

/-- **A printed expression** is cut into its lexemes. -/
theorem cuts_expr (hwords : Plain words) (hmod : Legible words (.keyword "mod")) {e : Expr}
    (h : ∀ n ∈ e.nodes, n.Printable words kind) : CutsExpr words kind e := by
  induction e using Expr.induct with
  | number x =>
    obtain ⟨hne, hchars, hread⟩ := h _ (List.mem_singleton_self _)
    exact cuts_number hne hchars (Option.isSome_of_eq_some hread)
  | param name index =>
    obtain ⟨hk, hname⟩ := h _ (List.mem_singleton_self _)
    exact cuts_name hwords hk hname
  | constant name =>
    obtain ⟨hk, hname⟩ := h _ (List.mem_singleton_self _)
    exact cuts_name hwords hk hname
  | unary op a ih =>
    rw [Expr.nodes, List.forall_mem_append] at h
    exact cuts_unary (h.2 _ (List.mem_singleton_self _)) (ih h.1)
  | binary op a b iha ihb =>
    rw [Expr.nodes, List.forall_mem_append, List.forall_mem_append] at h
    exact cuts_binary hwords hmod (h.2 _ (List.mem_singleton_self _)) (iha h.1.1) (ihb h.1.2)
  | call name as ih =>
    rw [Expr.nodes, List.forall_mem_append, Expr.nodesAll_eq_flatMap] at h
    refine cuts_call hwords (h.2 _ (List.mem_singleton_self _)) fun a ha => ih a ha fun n hn => ?_
    exact h.1 n (List.mem_flatMap.2 ⟨a, ha, hn⟩)

/-! ## Definitions -/

theorem cuts_comparison {c : Comparison} (h : ∀ e ∈ c.exprs, CutsExpr words kind e) :
    Cuts words c.text.toList (c.lexemes kind) := by
  have hleft := h c.left (by simp [Comparison.exprs])
  have hright := h c.right (by simp [Comparison.exprs])
  have hboth := hleft.around (severs_relation c.relation) hright
  simpa [Comparison.text, Comparison.lexemes] using hboth

theorem cuts_clause {c : Clause} (hwords : Plain words) (hif : Legible words (.keyword "if"))
    (hand : Legible words (.keyword "and")) (h : ∀ e ∈ c.exprs, CutsExpr words kind e) :
    Cuts words c.text.toList (c.lexemes kind) := by
  have hcomparisons : List.Forall₂ (Cuts words) (c.guard.map fun k => k.text.toList)
      (c.guard.map (Comparison.lexemes kind)) := by
    rw [List.forall₂_map_left_iff, List.forall₂_map_right_iff, List.forall₂_same]
    intro k hk
    exact cuts_comparison fun e he => h e (List.mem_append_left _ (List.mem_flatMap.2 ⟨k, hk, he⟩))
  have hguard := Cuts.intercalate (severs_keyword hwords hand) (ends_cons (by decide) _) (by simp) hcomparisons
  have hvalue := h c.value (by simp [Clause.exprs])
  have hboth := hvalue.around (severs_keyword hwords hif) hguard
  simpa [Clause.text, Clause.lexemes, Function.comp_def] using hboth

theorem cuts_head {d : Declaration} (hwords : Plain words)
    (hnames : ∀ name ∈ d.name :: d.paramNames, kind name ≠ .number ∧ Legible words ⟨kind name, name⟩) :
    Severs words (d.name ++ "(" ++ ", ".intercalate d.paramNames ++ ") = ").toList (d.headLexemes kind) := by
  have hname := hnames d.name List.mem_cons_self
  have hparams : List.Forall₂ (Cuts words) (d.paramNames.map String.toList)
      (d.paramNames.map fun name => [⟨kind name, name⟩]) := by
    rw [List.forall₂_map_left_iff, List.forall₂_map_right_iff, List.forall₂_same]
    intro name hmem
    have h := hnames name (List.mem_cons_of_mem _ hmem)
    exact cuts_name hwords h.1 h.2
  have hlist := Cuts.intercalate severs_comma (ends_cons (by decide) _) (by simp) hparams
  have hopen := (cuts_name hwords hname.1 hname.2).close severs_openParen (ends_cons (by decide) _) (by simp)
  have hhead := hopen.append_severs (hlist.close severs_equals (ends_cons (by decide) _) (by simp))
  simpa [Declaration.headLexemes, Function.comp_def] using hhead

/-- **A printed definition** is cut into its lexemes. -/
theorem cuts_declaration {d : Declaration} (hwords : Plain words)
    (hkeywords : ∀ name ∈ keywords, Legible words (.keyword name))
    (hnames : ∀ name ∈ d.name :: d.paramNames, kind name ≠ .number ∧ Legible words ⟨kind name, name⟩)
    (h : ∀ n ∈ d.nodes, n.Printable words kind) : Cuts words d.text.toList (d.lexemes kind) := by
  have hexprs : ∀ e ∈ d.exprs, CutsExpr words kind e := fun e he =>
    cuts_expr hwords (hkeywords "mod" (by decide)) fun n hn => h n (List.mem_flatMap.2 ⟨e, he, hn⟩)
  have hclauses : Severs words (d.clauses.flatMap fun c => c.text.toList ++ [';', ' '])
      (d.clauses.flatMap fun c => c.lexemes kind ++ [.semicolon]) := by
    refine .flatMap ?_
    intro c hc
    refine Cuts.close ?_ severs_semicolon (ends_cons (by decide) _) (by simp)
    refine cuts_clause hwords (hkeywords "if" (by decide)) (hkeywords "and" (by decide)) ?_
    intro e he
    exact hexprs e (List.mem_append_left _ (List.mem_flatMap.2 ⟨c, hc, he⟩))
  have hbody := hexprs d.body (by simp [Declaration.exprs])
  have hall := (cuts_head hwords hnames).append (hclauses.append hbody)
  simpa [Declaration.text, Declaration.lexemes, List.flatMap_map] using hall

end

end ComplexFormula

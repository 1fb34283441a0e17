/-
The grammar of expressions, with the tree of every phrase:

    sum        =  sum ("+" | "-") product  |  product
    product    =  product ("*" | "/" | "%" | "mod") signed  |  product power  |  signed
    signed     =  "-" signed  |  "+" signed  |  power
    power      =  postfixed "^" signed  |  postfixed
    postfixed  =  postfixed "!"  |  atom
    atom       =  number  |  identifier  |  constant  |  function "(" [sum {"," sum}] ")"  |  "(" sum ")"  |  "|" sum "|"

The grammar knows nothing of stacks or precedences. A product without a sign needs care twice: behind an identifier
only a bracket may follow, and directly inside of bars no bar may follow, since it closes.

- `Phrase`: tokens of a level with their tree; the flag says that the innermost open bracket is a bar.
- `Phrase.ne_nil`, `Phrase.begins`: how phrases begin.
- `Phrase.inner`: what separates the parts of a definition is never part of a phrase.
-/
import ComplexFormula.Expr.Assembly

namespace ComplexFormula.Grammar

/-! ## Signs -/

/-- the token is the operator of that text -/
def IsOperator (t : Token) (text : String) : Prop := t.kind = .operator ∧ t.text = text

/-- the token joins the parts of a sum by the operation -/
def SumSign (t : Token) (op : String) : Prop := IsOperator t "+" ∧ op = "add" ∨ IsOperator t "-" ∧ op = "sub"

/-- the token is the word or the operator `mod` -/
def IsMod (t : Token) : Prop := (t.kind = .keyword ∨ t.kind = .operator) ∧ t.text = "mod"

/-- the token joins the factors of a product by the operation -/
def ProductSign (t : Token) (op : String) : Prop :=
  IsOperator t "*" ∧ op = "mul" ∨ IsOperator t "/" ∧ op = "div" ∨ (IsOperator t "%" ∨ IsMod t) ∧ op = "mod"

/-! ## Phrases -/

/-- the levels of the grammar, loosest first -/
inductive Level where
  | sum
  | product
  | signed
  | power
  | postfixed
  | atom
  /-- a call up to the end of one of its arguments, its bracket still open -/
  | openCall
deriving DecidableEq, Repr

/-- the level whose phrases are phrases of this one as well -/
def Level.tighter? : Level → Option Level
  | .sum => some .product
  | .product => some .signed
  | .signed => some .power
  | .power => some .postfixed
  | .postfixed => some .atom
  | .atom | .openCall => none

/-- the phrases may stand side by side as factors -/
def Adjacent (bars : Bool) (ts us : List Token) : Prop :=
  (∀ t ∈ ts.getLast?, t.kind = .identifier → ∃ u ∈ us.head?, u.kind = .leftParen) ∧
    (bars = true → ∀ u ∈ us.head?, u.kind ≠ .bar)

/-- tokens that form a phrase of a level, and its tree; `bars` says that the innermost open bracket is a bar -/
inductive Phrase (params : List Param) : Level → Bool → List Token → Expr → Prop where
  | lift {level tighter bars ts e} (h : level.tighter? = some tighter) (he : Phrase params tighter bars ts e) :
    Phrase params level bars ts e
  | sum {bars ts t us op a b} (ha : Phrase params .sum bars ts a) (ht : SumSign t op)
      (hb : Phrase params .product bars us b) : Phrase params .sum bars (ts ++ t :: us) (.binary op a b)
  | product {bars ts t us op a b} (ha : Phrase params .product bars ts a) (ht : ProductSign t op)
      (hb : Phrase params .signed bars us b) : Phrase params .product bars (ts ++ t :: us) (.binary op a b)
  | juxtaposed {bars ts us a b} (ha : Phrase params .product bars ts a) (hb : Phrase params .power bars us b)
      (h : Adjacent bars ts us) : Phrase params .product bars (ts ++ us) (.binary "mul" a b)
  | minus {bars t ts a} (ht : IsOperator t "-") (ha : Phrase params .signed bars ts a) :
    Phrase params .signed bars (t :: ts) (.unary "neg" a)
  | plus {bars t ts a} (ht : IsOperator t "+") (ha : Phrase params .signed bars ts a) :
    Phrase params .signed bars (t :: ts) a
  | power {bars ts t us a b} (ha : Phrase params .postfixed bars ts a) (ht : IsOperator t "^")
      (hb : Phrase params .signed bars us b) : Phrase params .power bars (ts ++ t :: us) (.binary "pow" a b)
  | factorial {bars ts t a} (ha : Phrase params .postfixed bars ts a) (ht : IsOperator t "!") :
    Phrase params .postfixed bars (ts ++ [t]) (.unary "fac" a)
  | number {bars t x} (ht : t.kind = .number) (hx : Decimal.read? t.text = some x) :
    Phrase params .atom bars [t] (.number x)
  | param {bars t p} (ht : t.kind = .identifier) (hp : params.find? (·.name == t.text) = some p) :
    Phrase params .atom bars [t] (.param p.name p.index)
  | name {bars t} (ht : t.kind = .identifier) (hp : ∀ p ∈ params, p.name ≠ t.text) :
    Phrase params .atom bars [t] (.constant t.text)
  | constant {bars t} (ht : t.kind = .constant) : Phrase params .atom bars [t] (.constant t.text)
  | group {bars o ts c a} (ho : o.kind = .leftParen) (ha : Phrase params .sum false ts a) (hc : c.kind = .rightParen) :
    Phrase params .atom bars (o :: ts ++ [c]) a
  | modulus {bars o ts c a} (ho : o.kind = .bar) (ha : Phrase params .sum true ts a) (hc : c.kind = .bar) :
    Phrase params .atom bars (o :: ts ++ [c]) (.unary "abs" a)
  | emptyCall {bars f o c} (hf : f.kind = .function) (ho : o.kind = .leftParen) (hc : c.kind = .rightParen) :
    Phrase params .atom bars [f, o, c] (.call f.text [])
  | firstArgument {bars f o ts a} (hf : f.kind = .function) (ho : o.kind = .leftParen)
      (ha : Phrase params .sum false ts a) : Phrase params .openCall bars (f :: o :: ts) (.call f.text [a])
  | nextArgument {bars ts c us name as b} (has : Phrase params .openCall bars ts (.call name as)) (hc : c.kind = .comma)
      (hb : Phrase params .sum false us b) : Phrase params .openCall bars (ts ++ c :: us) (.call name (as ++ [b]))
  | call {bars ts c e} (he : Phrase params .openCall bars ts e) (hc : c.kind = .rightParen) :
    Phrase params .atom bars (ts ++ [c]) e

/-! ## Beginnings -/

/-- the kinds of token that a value begins with -/
def beginsValue : Token.Kind → Bool
  | .number | .identifier | .constant | .function | .leftParen | .bar => true
  | _ => false

/-- no sign stands in front of a phrase of the level -/
def Level.isUnsigned : Level → Bool
  | .sum | .product | .signed => false
  | _ => true

variable {params : List Param} {level : Level} {bars : Bool} {ts : List Token} {e : Expr}

theorem Phrase.ne_nil (h : Phrase params level bars ts e) : ts ≠ [] := by
  induction h with
  | lift _ _ ih => exact ih
  | juxtaposed _ _ _ ih => simp [ih]
  | call _ _ ih => simp
  | _ => simp

/-- a phrase without a sign begins as a value does -/
theorem Phrase.begins (h : Phrase params level bars ts e) (hl : level.isUnsigned = true) :
    ∃ t us, ts = t :: us ∧ beginsValue t.kind = true := by
  induction h with
  | @lift level tighter _ _ _ h _ ih =>
    apply ih
    cases level <;> simp_all [Level.tighter?, Level.isUnsigned] <;> subst h <;> rfl
  | power _ _ _ ih =>
    obtain ⟨t, us, rfl, ht⟩ := ih rfl
    exact ⟨t, _, rfl, ht⟩
  | factorial _ _ ih =>
    obtain ⟨t, us, rfl, ht⟩ := ih rfl
    exact ⟨t, _, rfl, ht⟩
  | number ht | param ht | name ht | constant ht => exact ⟨_, _, rfl, by simp [ht, beginsValue]⟩
  | group ho | modulus ho => exact ⟨_, _, rfl, by simp [ho, beginsValue]⟩
  | emptyCall hf | firstArgument hf => exact ⟨_, _, rfl, by simp [hf, beginsValue]⟩
  | nextArgument _ _ _ ih =>
    obtain ⟨t, us, rfl, ht⟩ := ih rfl
    exact ⟨t, _, rfl, ht⟩
  | call _ _ ih =>
    obtain ⟨t, us, rfl, ht⟩ := ih rfl
    exact ⟨t, _, rfl, ht⟩
  | sum | product | juxtaposed | minus | plus => exact absurd hl (by simp [Level.isUnsigned])

/-! ## Tokens of phrases -/

/-- the token separates no parts of a definition -/
def Inner (t : Token) : Prop :=
  t.kind ≠ .comparison ∧ t.kind ≠ .equals ∧ t.kind ≠ .semicolon ∧ (t.kind = .keyword → t.text = "mod")

theorem inner_of_kind {t : Token} {kind : Token.Kind} (ht : t.kind = kind)
    (hk : kind ∉ [.comparison, .equals, .semicolon, .keyword]) : Inner t := by
  subst ht
  simp only [List.mem_cons, List.not_mem_nil, or_false, not_or] at hk
  exact ⟨hk.1, hk.2.1, hk.2.2.1, fun h => absurd h hk.2.2.2⟩

theorem SumSign.inner {t : Token} {op : String} (h : SumSign t op) : Inner t := by
  obtain ⟨⟨hk, -⟩, -⟩ | ⟨⟨hk, -⟩, -⟩ := h <;> exact inner_of_kind hk (by decide)

theorem ProductSign.inner {t : Token} {op : String} (h : ProductSign t op) : Inner t := by
  obtain ⟨⟨hk, -⟩, -⟩ | ⟨⟨hk, -⟩, -⟩ | ⟨⟨hk, -⟩ | ⟨hk | hk, htext⟩, -⟩ := h
  · exact inner_of_kind hk (by decide)
  · exact inner_of_kind hk (by decide)
  · exact inner_of_kind hk (by decide)
  · exact ⟨by simp [hk], by simp [hk], by simp [hk], fun _ => htext⟩
  · exact inner_of_kind hk (by decide)

/-- **No token of a phrase separates** the parts of a definition. -/
theorem Phrase.inner (h : Phrase params level bars ts e) : ∀ t ∈ ts, Inner t := by
  induction h with
  | lift _ _ ih => exact ih
  | sum _ ht _ iha ihb => exact List.forall_mem_append.2 ⟨iha, List.forall_mem_cons.2 ⟨ht.inner, ihb⟩⟩
  | product _ ht _ iha ihb => exact List.forall_mem_append.2 ⟨iha, List.forall_mem_cons.2 ⟨ht.inner, ihb⟩⟩
  | juxtaposed _ _ _ iha ihb => exact List.forall_mem_append.2 ⟨iha, ihb⟩
  | minus ht _ ih | plus ht _ ih => exact List.forall_mem_cons.2 ⟨inner_of_kind ht.1 (by decide), ih⟩
  | power _ ht _ iha ihb =>
    exact List.forall_mem_append.2 ⟨iha, List.forall_mem_cons.2 ⟨inner_of_kind ht.1 (by decide), ihb⟩⟩
  | factorial _ ht ih =>
    exact List.forall_mem_append.2 ⟨ih, List.forall_mem_singleton.2 (inner_of_kind ht.1 (by decide))⟩
  | number ht | param ht | name ht | constant ht =>
    exact List.forall_mem_singleton.2 (inner_of_kind ht (by decide))
  | group ho _ hc ih | modulus ho _ hc ih =>
    refine List.forall_mem_append.2 ⟨List.forall_mem_cons.2 ⟨inner_of_kind ho (by decide), ih⟩, ?_⟩
    exact List.forall_mem_singleton.2 (inner_of_kind hc (by decide))
  | emptyCall hf ho hc =>
    simp only [List.forall_mem_cons]
    exact ⟨inner_of_kind hf (by decide), inner_of_kind ho (by decide), inner_of_kind hc (by decide), by simp⟩
  | firstArgument hf ho _ ih =>
    exact List.forall_mem_cons.2 ⟨inner_of_kind hf (by decide),
      List.forall_mem_cons.2 ⟨inner_of_kind ho (by decide), ih⟩⟩
  | nextArgument _ hc _ iha ihb =>
    exact List.forall_mem_append.2 ⟨iha, List.forall_mem_cons.2 ⟨inner_of_kind hc (by decide), ihb⟩⟩
  | call _ hc ih => exact List.forall_mem_append.2 ⟨ih, List.forall_mem_singleton.2 (inner_of_kind hc (by decide))⟩

end ComplexFormula.Grammar

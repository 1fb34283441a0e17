/-
The depth of expressions. Every operand carries the height of its tree, and no tree on the stack is higher than the
limit. A fault of depth means that the assembly, in the state that the tokens read so far lead to, comes to build a node
that is one level too high. That node is the tree of a phrase that these tokens end with; and since brackets, commas
and plus signs do not make a tree higher, their number alone never leads to that fault.

- `OnTop`: a phrase on top of the operands, at the end of the tokens that were read.
- `Context.forms`, `OnTop.completes`: completing operators leaves a phrase on top.
- `Reads.phrase_of_builds`: **a node that is built** is the tree of a phrase.
- `Token.raises`, `Phrase.height_le`: the tokens that can make a tree higher.
- `depth_exact`: **the limit is sound and exact**.
-/
import ComplexFormula.Proofs.Definition.Faults
import ComplexFormula.Proofs.Definition.Reading
import ComplexFormula.Proofs.Grammar.Building

namespace ComplexFormula

open Grammar

namespace Grammar

/-! ## The phrase on top -/

/-- the tokens end with a phrase whose tree is on top of the operands, in front of which the other tokens stand -/
def OnTop (params : List Param) (tokens : List Token) (ws : List Waiting) (os : List Operand) : Prop :=
  ∃ level bars first ts us rest e, Context params level bars first ts ws rest ∧ Phrase params level bars us e ∧
    BeginsWith first us ∧ ts ++ us = tokens ∧ os = e.operand :: rest

section

variable {params : List Param} {level : Level} {bars : Bool} {first : Option Token} {tokens ts us left : List Token}
  {t : Token} {s : Assembly} {w : Waiting} {ws ws' : List Waiting} {os os' : List Operand} {e node : Expr}
  {yields : Waiting → Bool}

/-- the operator on top of a context forms the tree of a phrase with the tokens between them -/
theorem Context.forms (hc : Context params level bars first ts (w :: ws) os) (he : Phrase params level bars us e)
    (hfirst : BeginsWith first us) (hw : w.Forms (e.operand :: os) node os') :
    OnTop params (ts ++ us) ws (node.operand :: os') := by
  generalize hws : w :: ws = stack at hc
  induction hc generalizing us e with
  | start => cases hws
  | lift hlevel _ ih => exact ih (he.lift hlevel) hfirst hw hws
  | @sum _ ts _ _ us₀ _ t _ hc ha ht =>
    cases hws
    cases hw
    exact ⟨_, _, none, ts, us₀ ++ t :: us, _, _, hc, ha.sum ht he, .none _, by simp, rfl⟩
  | @product _ ts _ _ us₀ _ t _ hc ha ht =>
    cases hws
    cases hw
    exact ⟨_, _, none, ts, us₀ ++ t :: us, _, _, hc, ha.product ht he, .none _, by simp, rfl⟩
  | @juxtaposed _ ts _ _ us₀ _ _ hc ha ht =>
    cases hws
    cases hw
    exact ⟨_, _, none, ts, us₀ ++ us, _, _, hc, ha.juxtaposed he (ht.of_beginsWith hfirst), .none _, by simp, rfl⟩
  | @power _ _ ts _ _ us₀ _ t hc ha hbegins ht =>
    cases hws
    cases hw
    exact ⟨_, _, _, ts, us₀ ++ t :: us, _, _, hc, ha.power ht he, hbegins.append _, by simp, rfl⟩
  | @minus _ ts _ _ t hc ht =>
    cases hws
    cases hw
    exact ⟨_, _, none, ts, t :: us, _, _, hc, he.minus ht, .none _, by simp, rfl⟩
  | plus _ ht ih => simpa using ih (he.plus ht) (.none _) hw hws
  | group | modulus | call | argument =>
    cases hws
    cases hw

/-- in front of a phrase behind an open bracket a sum is due -/
theorem Context.bracket (hc : Context params level bars first ts (w :: ws) os) (he : Phrase params level bars us e)
    (hw : w.isBracket = true) :
    ∃ ts' us', Context params .sum bars none ts' (w :: ws) os ∧ Phrase params .sum bars us' e ∧ ts' ++ us' = ts ++ us := by
  generalize hws : w :: ws = stack at hc ⊢
  induction hc generalizing us e with
  | start => cases hws
  | lift hlevel _ ih => exact ih (he.lift hlevel) hws
  | plus _ ht ih => simpa using ih (he.plus ht) hws
  | sum | product | juxtaposed | power | minus =>
    cases hws
    cases hw
  | group hc hfirst ho => exact ⟨_, us, .group hc hfirst ho, he, rfl⟩
  | modulus hc hfirst ho => exact ⟨_, us, .modulus hc hfirst ho, he, rfl⟩
  | call hc hfirst hf ho => exact ⟨_, us, .call hc hfirst hf ho, he, rfl⟩
  | argument hc has hfirst hcomma => exact ⟨_, us, .argument hc has hfirst hcomma, he, rfl⟩

namespace OnTop

theorem forms (h : OnTop params tokens (w :: ws) os) (hw : w.Forms os node os') :
    OnTop params tokens ws (node.operand :: os') := by
  obtain ⟨level, bars, first, ts, us, rest, e, hc, he, hfirst, rfl, rfl⟩ := h
  exact hc.forms he hfirst hw

/-- **Completing operators** leaves a phrase on top. -/
theorem completes (h : OnTop params tokens ws os) (hc : Completes yields ws os ws' os') :
    OnTop params tokens ws' os' := by
  induction hc with
  | refl => exact h
  | head _ hw _ _ ih => exact ih (h.forms hw)

theorem phrase (h : OnTop params tokens ws (e.operand :: os)) :
    ∃ level bars us, Phrase params level bars us e ∧ us <:+ tokens := by
  obtain ⟨level, bars, first, ts, us, rest, e', -, he, -, rfl, hos⟩ := h
  obtain rfl : e = e' := congrArg Operand.expr (List.cons.inj hos).1
  exact ⟨level, bars, us, he, List.suffix_append ts us⟩

/-- behind an open bracket it is a sum -/
theorem sum (h : OnTop params tokens (w :: ws) os) (hw : w.isBracket = true) :
    ∃ bars ts us rest e, Context params .sum bars none ts (w :: ws) rest ∧ Phrase params .sum bars us e ∧
      ts ++ us = tokens ∧ os = e.operand :: rest := by
  obtain ⟨level, bars, first, ts, us, rest, e, hc, he, -, rfl, rfl⟩ := h
  obtain ⟨ts', us', hc', he', hts⟩ := hc.bracket he hw
  exact ⟨bars, ts', us', rest, e, hc', he', hts, rfl⟩

end OnTop

/-! ## Nodes -/

theorem Reads.onTop (h : Reads params ts s) (hlast : s.last.isValue = true) :
    OnTop params ts s.waiting s.operands := by
  cases h with
  | due | callDue => simp [Last.isValue] at hlast
  | value hc he hfirst => exact ⟨_, _, _, _, _, _, _, hc, he.lift rfl, hfirst, rfl, rfl⟩

/-- the tokens of a phrase and the one at hand -/
theorem suffix_snoc (ts us left : List Token) (t : Token) : us ++ [t] <:+ ts ++ us ++ (t :: left).take 1 := by
  rw [List.append_assoc]
  exact List.suffix_append ts _

/-- the call that is closed -/
theorem OnTop.call {name : String} {opened commas : Nat} {as : List Operand}
    (h : OnTop params tokens (.call name opened commas :: ws) (as.reverse ++ os)) (has : as.length = commas + 1)
    (hk : t.kind = .rightParen) (left : List Token) : ∃ level bars us,
      Phrase params level bars us (.call name (as.map Operand.expr)) ∧ us <:+ tokens ++ (t :: left).take 1 := by
  obtain ⟨bars, ts, us, rest, e, hc, he, rfl, hos⟩ := h.sum rfl
  obtain ⟨bars', first', ts', us', exprs, os', -, hcall, -, hts, rfl, rfl⟩ := hc.openCall he
  obtain rfl : as = (exprs ++ [e]).map Expr.operand := by
    have hsplit : as.reverse ++ os = ((exprs ++ [e]).map Expr.operand).reverse ++ os' := by simpa using hos
    exact List.reverse_injective (List.append_inj hsplit (by simp [has])).1
  rw [map_operand_expr, ← hts]
  exact ⟨_, bars', us' ++ [t], .call hcall hk, suffix_snoc ts' us' left t⟩

/-- the modulus that is closed -/
theorem OnTop.modulus {opened : Nat} {a : Operand} (h : OnTop params tokens (.bar opened :: ws) (a :: os))
    (hk : t.kind = .bar) (left : List Token) : ∃ level bars us,
      Phrase params level bars us (.unary "abs" a.expr) ∧ us <:+ tokens ++ (t :: left).take 1 := by
  obtain ⟨bars, ts, us, rest, e, hc, he, rfl, hos⟩ := h.sum rfl
  obtain rfl : a = e.operand := (List.cons.inj hos).1
  cases hc with
  | @lift level _ _ _ _ _ _ hlevel _ => cases level <;> simp [Level.tighter?] at hlevel
  | @modulus bars' _ ts' _ _ o _ _ _ ho =>
    exact ⟨_, bars', o :: us ++ [t], .modulus ho he hk, by simp⟩

/-- **A node that is built** is the tree of a phrase that the tokens read so far end with, perhaps with the one at
hand. -/
theorem Reads.phrase_of_builds (h : Reads params ts s) (hnode : s.Builds left node) :
    ∃ level bars us, Phrase params level bars us node ∧ (us <:+ ts ∨ us <:+ ts ++ left.take 1) := by
  cases hnode with
  | waiting hdemands hforms =>
    obtain ⟨w, ws, os, os', hc, -, hw⟩ := hforms
    obtain ⟨level, bars, us, he, hus⟩ := (((h.onTop hdemands.isValue).completes hc).forms hw).phrase
    exact ⟨level, bars, us, he, .inl hus⟩
  | @factorial t left a os hlast ht hos =>
    cases h with
    | due | callDue => simp [Last.isValue] at hlast
    | @value bars _ ts _ _ us e _ he =>
      obtain rfl : e.operand = a := (List.cons.inj hos).1
      exact ⟨_, bars, us ++ [t], he.factorial ht, .inr (suffix_snoc ts us left t)⟩
  | @call t left _ _ _ _ _ _ hlast hk hc has =>
    obtain ⟨level, bars, us, he, hus⟩ := ((h.onTop hlast).completes hc).call has hk left
    exact ⟨level, bars, us, he, .inr hus⟩
  | @modulus t left _ _ _ _ hlast hk hc =>
    obtain ⟨level, bars, us, he, hus⟩ := ((h.onTop hlast).completes hc).modulus hk left
    exact ⟨level, bars, us, he, .inr hus⟩

end

end Grammar

/-! ## What makes a tree higher -/

/-- the token can make a tree higher: a value, the name of a function, a bar, a minus sign or a factorial sign; an
operator between two operands need not count, since both of them have tokens of their own -/
def Token.raises (t : Token) : Bool :=
  match t.kind with
  | .number | .identifier | .constant | .function | .bar => true
  | .operator => t.text = "-" || t.text = "!"
  | _ => false

theorem Token.raises_of_kind {t : Token} {kind : Token.Kind} (ht : t.kind = kind)
    (hk : kind ∈ [.number, .identifier, .constant, .function, .bar]) : t.raises = true := by
  subst ht
  simp only [List.mem_cons, List.not_mem_nil, or_false] at hk
  rcases hk with h | h | h | h | h <;> rw [raises, h]

theorem Expr.binary_height_le {op : String} {a b : Expr} {m n : Nat} (ha : a.height ≤ m) (hb : b.height ≤ n) :
    (Expr.binary op a b).height ≤ m + n := by
  have := a.height_pos
  have := b.height_pos
  rw [height]
  omega

/-- **The height of a tree** is at most the number of the tokens that can make it higher. -/
theorem Grammar.Phrase.height_le {params : List Param} {level : Level} {bars : Bool} {ts : List Token} {e : Expr}
    (h : Phrase params level bars ts e) : e.height ≤ ts.countP Token.raises := by
  induction h with
  | lift _ _ ih => exact ih
  | sum _ _ _ iha ihb | product _ _ _ iha ihb | power _ _ _ iha ihb =>
    rw [List.countP_append, List.countP_cons]
    exact Expr.binary_height_le iha (Nat.le_add_right_of_le ihb)
  | juxtaposed _ _ _ iha ihb =>
    rw [List.countP_append]
    exact Expr.binary_height_le iha ihb
  | @minus _ t _ _ ht _ ih =>
    have hraises : t.raises = true := by simp [Token.raises, ht.1, ht.2]
    rw [Expr.height, List.countP_cons_of_pos hraises]
    exact Nat.succ_le_succ ih
  | plus _ _ ih =>
    rw [List.countP_cons]
    exact Nat.le_add_right_of_le ih
  | @factorial _ _ t _ _ ht ih =>
    have hraises : t.raises = true := by simp [Token.raises, ht.1, ht.2]
    rw [Expr.height, List.countP_append, List.countP_singleton, if_pos hraises]
    exact Nat.succ_le_succ ih
  | number ht | param ht | name ht | constant ht =>
    rw [List.countP_singleton, if_pos (Token.raises_of_kind ht (by decide))]
    exact Nat.le_refl 1
  | group _ _ _ ih =>
    rw [List.cons_append, List.countP_cons, List.countP_append]
    omega
  | modulus ho _ _ ih =>
    have hraises := Token.raises_of_kind ho (by decide)
    rw [Expr.height, List.cons_append, List.countP_cons_of_pos hraises, List.countP_append]
    omega
  | emptyCall hf =>
    rw [List.countP_cons_of_pos (Token.raises_of_kind hf (by decide))]
    exact Nat.succ_le_succ (Nat.zero_le _)
  | firstArgument hf _ _ ih =>
    have hraises := Token.raises_of_kind hf (by decide)
    rw [Expr.height, Expr.heightAll, Expr.heightAll, List.countP_cons_of_pos hraises, List.countP_cons]
    omega
  | nextArgument _ _ _ ihas ihb =>
    rw [Expr.height] at ihas
    rw [Expr.height, Expr.heightAll_append, Expr.heightAll, Expr.heightAll, List.countP_append, List.countP_cons]
    omega
  | call _ _ ih =>
    rw [List.countP_append]
    exact Nat.le_add_right_of_le ih

/-! ## The limit -/

/-- **The limit of depth** is sound and exact. In every state that is reached the depth of an operand is the height of
its tree and at most the limit, and no expression of a definition is higher than the limit. An expression fails for its
depth exactly if some of its tokens lead to a state in which the tokens that are left come to build a node one level too
high. No node is built that is higher, and each is the tree of a phrase that ends where the tokens have been read to,
with as many values, functions, bars, minus signs or factorial signs as the node is high, whatever else there is. A
definition fails for its depth only where one of its expressions does. -/
theorem depth_exact (params : List Param) :
    (∀ tokens s, Assembly.Reaches params .start tokens s →
        ∀ a ∈ s.operands, a.depth = a.expr.height ∧ a.depth ≤ depthLimit) ∧
      (∀ tokens d, Declaration.ofTokens tokens = .ok d → ∀ e ∈ d.exprs, e.height ≤ depthLimit) ∧
      (∀ stop tokens pos, Expr.ofTokens params stop tokens = .error (.grammar .tooDeep pos) ↔
        ∃ read left s e, read ++ left = tokens ∧ Assembly.Reaches params .start read s ∧ s.Builds left e ∧
          e.height = depthLimit + 1 ∧ pos = Assembly.place stop left) ∧
      (∀ read left s e, Assembly.Reaches params .start read s → s.Builds left e → e.height ≤ depthLimit + 1 ∧
        ∃ level bars us, Phrase params level bars us e ∧ (us <:+ read ∨ us <:+ read ++ left.take 1) ∧
          e.height ≤ us.countP Token.raises) ∧
      ∀ tokens pos, Declaration.ofTokens tokens = .error (.grammar .tooDeep pos) →
        ∃ ps stop ts, ts ⊆ tokens ∧ Expr.ofTokens ps stop ts = .error (.grammar .tooDeep pos) := by
  refine ⟨?_, ?_, ?_, ?_, ?_⟩
  · exact fun tokens s hreaches => hreaches.fits
  · intro tokens d hd e he
    exact (Declaration.isRead_of_ofTokens hd).height_le he
  · exact fun stop tokens pos => ofTokens_eq_tooDeep_iff
  · intro read left s e hreaches he
    obtain ⟨level, bars, us, hphrase, hus⟩ := hreaches.reads.phrase_of_builds he
    exact ⟨he.height_le hreaches.fits, level, bars, us, hphrase, hus, hphrase.height_le⟩
  · exact fun tokens pos => Declaration.exists_ofTokens_tooDeep

/-- so many minus signs in front of a constant -/
def signed (signs : Nat) : List Token := List.replicate signs ⟨.operator, "-", 4, 5⟩ ++ [⟨.constant, "i", 5, 6⟩]

/-- the head `f()=` -/
def signedHead : List Token :=
  [⟨.identifier, "f", 0, 1⟩, ⟨.leftParen, "(", 1, 2⟩, ⟨.rightParen, ")", 2, 3⟩, ⟨.equals, "=", 3, 4⟩]

/-- a body of the greatest height that is possible, an expression one level higher with the node that is refused, and a
state on the way to both -/
theorem depth_exact_signed :
    (∃ d, Declaration.ofTokens (signedHead ++ signed 1023) = .ok d ∧ d.body.height = depthLimit ∧
        ∀ e ∈ d.exprs, e.height ≤ depthLimit) ∧
      (Expr.ofTokens [] 6 (signed 1024) = .error (.grammar .tooDeep 6) ∧
        ∃ read left s e, read ++ left = signed 1024 ∧ Assembly.Reaches [] .start read s ∧ s.Builds left e ∧
          e.height = depthLimit + 1 ∧ 6 = Assembly.place 6 left ∧
            ∃ level bars us, Phrase [] level bars us e ∧ (us <:+ read ∨ us <:+ read ++ left.take 1)) ∧
      ∃ s, Assembly.Reaches [] .start (signed 1) s ∧
        ∀ a ∈ s.operands, a.depth = a.expr.height ∧ a.depth ≤ depthLimit := by
  obtain ⟨hreached, hexprs, htooDeep, hbuilt, -⟩ := depth_exact []
  refine ⟨?_, ?_, ?_⟩
  · have hbody : (Declaration.ofTokens (signedHead ++ signed 1023)).map (·.body.height) = .ok depthLimit := by
      decide +kernel
    obtain ⟨d, hd, hheight⟩ := map_eq_ok_iff.1 hbody
    exact ⟨d, hd, hheight, hexprs _ d hd⟩
  · have hfault : (Expr.ofTokens [] 6 (signed 1024)).map Expr.height = .error (.grammar .tooDeep 6) := by
      decide +kernel
    have hrefused := map_eq_error_iff.1 hfault
    obtain ⟨read, left, s, e, hsplit, hreaches, he, hheight, hpos⟩ := (htooDeep _ _ _).1 hrefused
    obtain ⟨-, level, bars, us, hphrase, hus, -⟩ := hbuilt read left s e hreaches he
    exact ⟨hrefused, read, left, s, e, hsplit, hreaches, he, hheight, hpos, level, bars, us, hphrase, hus⟩
  · have hsign := Assembly.Reaches.tail (@Assembly.Reaches.refl [] .start)
      (.token (t := ⟨.operator, "-", 4, 5⟩) (by decide) rfl)
    have hconstant := hsign.tail (.token (t := ⟨.constant, "i", 5, 6⟩) (by decide) rfl)
    exact ⟨_, hconstant, hreached _ _ hconstant⟩

end ComplexFormula

/-
What stands in front of a phrase. At every point of a run the tokens read so far, together with the two stacks, are
the beginning of a sum in which a phrase of some level is due: brackets that are open, and operators whose left operand
is a finished phrase. Completing waiting operators moves tokens from the context into the phrase.

- `Context`: the beginnings, one constructor for each symbol of the grammar in front of which a phrase is due.
- `Context.insideBars`: the flag of the grammar is what the assembly reads off its stack.
- `Context.toProduct`, `Context.toSum`: completing the operators that a sign or a closing bracket completes.
-/
import ComplexFormula.Proofs.Grammar.Completeness

namespace ComplexFormula.Grammar

/-- the tokens begin with the given one, if one is given -/
def BeginsWith (first : Option Token) (ts : List Token) : Prop := ∀ t ∈ first, ts.head? = some t

theorem BeginsWith.none (ts : List Token) : BeginsWith none ts := fun _ h => absurd h (by simp)

theorem BeginsWith.append {first : Option Token} {ts : List Token} (h : BeginsWith first ts) (us : List Token) :
    BeginsWith first (ts ++ us) := fun t ht => by simp [h t ht]

/-- the tokens `ts` with the stacks `ws` and `os` stand in front of a phrase of the level, which is to begin with the
token `first` if there is one -/
inductive Context (params : List Param) :
    Level → Bool → Option Token → List Token → List Waiting → List Operand → Prop where
  | start : Context params .sum false none [] [] []
  | lift {level tighter bars first ts ws os} (h : level.tighter? = some tighter)
      (hc : Context params level bars first ts ws os) : Context params tighter bars first ts ws os
  | sum {bars ts ws os us a t} {op : BinaryOp} (hc : Context params .sum bars none ts ws os)
      (ha : Phrase params .sum bars us a) (ht : SumSign t op.name) :
    Context params .product bars none (ts ++ us ++ [t]) (.binary op :: ws) (a.operand :: os)
  | product {bars ts ws os us a t} {op : BinaryOp} (hc : Context params .product bars none ts ws os)
      (ha : Phrase params .product bars us a) (ht : ProductSign t op.name) :
    Context params .signed bars none (ts ++ us ++ [t]) (.binary op :: ws) (a.operand :: os)
  | juxtaposed {bars ts ws os us a t} (hc : Context params .product bars none ts ws os)
      (ha : Phrase params .product bars us a) (ht : Adjacent bars us [t]) :
    Context params .power bars (some t) (ts ++ us) (.binary .mul :: ws) (a.operand :: os)
  | minus {bars ts ws os t} (hc : Context params .signed bars none ts ws os) (ht : IsOperator t "-") :
    Context params .signed bars none (ts ++ [t]) (.neg :: ws) os
  | plus {bars ts ws os t} (hc : Context params .signed bars none ts ws os) (ht : IsOperator t "+") :
    Context params .signed bars none (ts ++ [t]) ws os
  | power {bars first ts ws os us a t} (hc : Context params .power bars first ts ws os)
      (ha : Phrase params .postfixed bars us a) (hfirst : BeginsWith first us) (ht : IsOperator t "^") :
    Context params .signed bars none (ts ++ us ++ [t]) (.binary .pow :: ws) (a.operand :: os)
  | group {bars first ts ws os o pos} (hc : Context params .power bars first ts ws os) (hfirst : BeginsWith first [o])
      (ho : o.kind = .leftParen) : Context params .sum false none (ts ++ [o]) (.group pos :: ws) os
  | modulus {bars first ts ws os o pos} (hc : Context params .power bars first ts ws os) (hfirst : BeginsWith first [o])
      (ho : o.kind = .bar) : Context params .sum true none (ts ++ [o]) (.bar pos :: ws) os
  | call {bars first ts ws os f o pos} (hc : Context params .power bars first ts ws os) (hfirst : BeginsWith first [f])
      (hf : f.kind = .function) (ho : o.kind = .leftParen) :
    Context params .sum false none (ts ++ [f, o]) (.call f.text pos 0 :: ws) os
  | argument {bars first ts ws os us name as c pos} (hc : Context params .power bars first ts ws os)
      (has : Phrase params .openCall bars us (.call name as)) (hfirst : BeginsWith first us) (hcomma : c.kind = .comma) :
    Context params .sum false none (ts ++ us ++ [c]) (.call name pos as.length :: ws)
      ((as.map Expr.operand).reverse ++ os)

section

variable {params : List Param} {level : Level} {bars : Bool} {first : Option Token} {ts us : List Token}
  {ws : List Waiting} {os : List Operand} {e : Expr}

/-- only a factor without a sign has to begin with a given token -/
theorem Context.first_eq_none (hc : Context params level bars first ts ws os)
    (hl : level = .sum ∨ level = .product ∨ level = .signed) : first = none := by
  induction hc with
  | @lift level tighter _ _ _ _ _ h hc ih =>
    apply ih
    cases level <;> cases h <;> simp_all
  | juxtaposed => simp at hl
  | _ => rfl

/-- the innermost open bracket is a bar exactly when the flag says so -/
theorem Context.insideBars (hc : Context params level bars first ts ws os) (os' : List Operand) (last : Last) :
    Assembly.insideBars ⟨os', ws, last⟩ = bars := by
  induction hc with
  | start => rfl
  | lift _ _ ih => exact ih
  | sum _ _ _ ih | product _ _ _ ih | juxtaposed _ _ _ ih | minus _ _ ih | power _ _ _ _ ih =>
    exact (Assembly.insideBars_cons rfl).trans ih
  | plus _ _ ih => exact ih
  | group | modulus | call | argument => exact Assembly.insideBars_bracket rfl

/-- in front of a sum only a bracket can wait -/
theorem Context.isReady_sum (hc : Context params .sum bars first ts ws os) : Level.sum.IsReady ws := by
  cases hc with
  | @lift level _ _ _ _ _ _ h _ => cases level <;> simp [Level.tighter?] at h
  | start => simp [Level.IsReady]
  | group | modulus | call | argument => simp [Level.IsReady, Waiting.isBracket]

/-- in front of a product nothing waits that a product sign completes -/
theorem Context.isReady_product (hc : Context params .product bars first ts ws os) : Level.product.IsReady ws := by
  cases hc with
  | @lift level _ _ _ _ _ _ h hc =>
    cases level <;> simp [Level.tighter?] at h
    exact hc.isReady_sum.tighter rfl
  | @sum _ _ _ _ _ _ _ op _ _ ht =>
    obtain ⟨-, hop⟩ | ⟨-, hop⟩ := ht <;> cases op <;> simp_all [BinaryOp.name, Level.IsReady, Waiting.yieldsTo,
      BinaryOp.precedence]

/-! ## Completing operators -/

theorem Adjacent.of_beginsWith {t : Token} {us vs : List Token} (h : Adjacent bars us [t]) (ht : BeginsWith (some t) vs) :
    Adjacent bars us vs := by
  have hhead : vs.head? = some t := ht t rfl
  exact ⟨fun u hu hk => by simpa [hhead] using h.1 u hu hk, fun hb => by simpa [hhead] using h.2 hb⟩

/-- a binary operator that was completed leaves its node, which is not too high -/
theorem reduceWhile_binary_ok {yields : Waiting → Bool} {pos : Nat} {op : BinaryOp} {a b : Expr}
    {r : List Waiting × List Operand} (hy : yields (.binary op) = true)
    (h : reduceWhile yields pos (.binary op :: ws) (b.operand :: a.operand :: os) = .ok r) :
    (Expr.binary op.name a b).height ≤ depthLimit ∧
      reduceWhile yields pos ws ((Expr.binary op.name a b).operand :: os) = .ok r := by
  by_cases hheight : (Expr.binary op.name a b).height ≤ depthLimit
  · exact ⟨hheight, by rwa [reduceWhile_binary hy hheight] at h⟩
  · simp [reduceWhile, hy, reduce, pushBinary_operand, pushNode_operand, hheight] at h

/-- a negative sign that was completed leaves its node, which is not too high -/
theorem reduceWhile_neg_ok {yields : Waiting → Bool} {pos : Nat} {a : Expr} {r : List Waiting × List Operand}
    (hy : yields .neg = true) (h : reduceWhile yields pos (.neg :: ws) (a.operand :: os) = .ok r) :
    (Expr.unary "neg" a).height ≤ depthLimit ∧
      reduceWhile yields pos ws ((Expr.unary "neg" a).operand :: os) = .ok r := by
  by_cases hheight : (Expr.unary "neg" a).height ≤ depthLimit
  · exact ⟨hheight, by rwa [reduceWhile_neg hy hheight] at h⟩
  · simp [reduceWhile, hy, reduce, pushUnary_operand, pushNode_operand, hheight] at h

/-- the tokens read so far are those in front of a phrase of the level and those of the phrase, and what remains to be
completed gives `r` -/
def Pending (params : List Param) (level : Level) (bars : Bool) (ts : List Token) (yields : Waiting → Bool) (pos : Nat)
    (r : List Waiting × List Operand) : Prop :=
  ∃ ts' us ws os e, Context params level bars none ts' ws os ∧ Phrase params level bars us e ∧ ts' ++ us = ts ∧
    e.height ≤ depthLimit ∧ reduceWhile yields pos ws (e.operand :: os) = .ok r

/-- **Up to a product.** Completing what a product sign completes turns the phrase into a product. -/
theorem Context.toProduct {yields : Waiting → Bool} {pos : Nat} {r : List Waiting × List Operand}
    (hy : ∀ w, Waiting.yieldsTo .mul w = true → yields w = true) (hc : Context params level bars first ts ws os)
    (hl : level = .product ∨ level = .signed ∨ level = .power) (he : Phrase params level bars us e)
    (hfirst : BeginsWith first us) (hheight : e.height ≤ depthLimit)
    (h : reduceWhile yields pos ws (e.operand :: os) = .ok r) : Pending params .product bars (ts ++ us) yields pos r := by
  induction hc generalizing us e with
  | @lift level tighter _ _ _ _ _ hlevel hc ih =>
    cases level <;> cases hlevel
    case lift.sum.refl =>
      obtain rfl := hc.first_eq_none (.inl rfl)
      exact ⟨_, us, _, _, e, hc.lift rfl, he, rfl, hheight, h⟩
    case lift.product.refl => exact ih (.inl rfl) (he.lift rfl) hfirst hheight h
    case lift.signed.refl => exact ih (.inr (.inl rfl)) (he.lift rfl) hfirst hheight h
    all_goals simp at hl
  | sum hc ha ht => exact ⟨_, us, _, _, e, hc.sum ha ht, he, rfl, hheight, h⟩
  | product hc ha ht ih =>
    obtain ⟨hheight, h⟩ := reduceWhile_binary_ok (hy _ (BinaryOp.joins_product ht.precedence_eq).yields) h
    simpa using ih (.inl rfl) (ha.product ht he) (.none _) hheight h
  | juxtaposed hc ha ht ih =>
    obtain ⟨hheight, h⟩ := reduceWhile_binary_ok (hy _ rfl) h
    simpa using ih (.inl rfl) (ha.juxtaposed he (ht.of_beginsWith hfirst)) (.none _) hheight h
  | minus hc ht ih =>
    obtain ⟨hheight, h⟩ := reduceWhile_neg_ok (hy _ rfl) h
    simpa using ih (.inr (.inl rfl)) (he.minus ht) (.none _) hheight h
  | plus hc ht ih => simpa using ih (.inr (.inl rfl)) (he.plus ht) (.none _) hheight h
  | power hc ha hbegins ht ih =>
    have hpow : yields (.binary .pow) = true := hy _ rfl
    obtain ⟨hheight, h⟩ := reduceWhile_binary_ok hpow h
    simpa using ih (.inr (.inr rfl)) (ha.power ht he) (hbegins.append _) hheight h
  | start | group | modulus | call | argument => simp at hl

/-- **Up to a sum.** Completing everything down to the bracket turns the phrase into a sum. -/
theorem Context.toSum {yields : Waiting → Bool} {pos : Nat} {r : List Waiting × List Operand}
    (hy : ∀ w, w.isBracket = false → yields w = true) (hc : Context params .power bars first ts ws os)
    (he : Phrase params .power bars us e) (hfirst : BeginsWith first us) (hheight : e.height ≤ depthLimit)
    (h : reduceWhile yields pos ws (e.operand :: os) = .ok r) : Pending params .sum bars (ts ++ us) yields pos r := by
  obtain ⟨ts', us', ws', os', e', hc', he', hts, hheight', h'⟩ :=
    hc.toProduct (fun w hw => hy w (@Level.isBracket_of_yields .product w hw)) (.inr (.inr rfl)) he hfirst hheight h
  rw [← hts]
  cases hc' with
  | @lift level _ _ _ _ _ _ hlevel hc' =>
    cases level <;> cases hlevel
    exact ⟨_, us', _, _, e', hc', he'.lift rfl, rfl, hheight', h'⟩
  | @sum _ ts₀ _ _ us₀ _ t _ hc' ha ht =>
    obtain ⟨hheight', h'⟩ := reduceWhile_binary_ok (hy _ rfl) h'
    exact ⟨ts₀, us₀ ++ t :: us', _, _, _, hc', ha.sum ht he', by simp, hheight', h'⟩

end

end ComplexFormula.Grammar

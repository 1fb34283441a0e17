/-
Only phrases are read. After every token the tokens read so far are a context in which a value is due, or a context
with a value behind it; a run that comes to an end has read a sum.

- `Reads`: the invariant of the run.
- `Reads.step`: every accepted token preserves it, `Reads.call`: so do the name of a function and its bracket.
- `Reads.finish`: at the end the tokens are a sum.
- `phrase_of_ofTokens`: **soundness**, and `ofTokens_eq_ok_iff`: what is accepted, exactly.
-/
import ComplexFormula.Proofs.Grammar.Context

namespace ComplexFormula.Grammar

/-! ## The invariant -/

/-- the tokens read so far, and the state that they lead to -/
inductive Reads (params : List Param) : List Token → Assembly → Prop where
  /-- a value is due -/
  | due {bars ts ws os} (hc : Context params .signed bars none ts ws os) : Reads params ts ⟨os, ws, .operator⟩
  /-- an argument is due, or the bracket that closes a call without arguments -/
  | callDue {bars first ts ws os f o pos} (hc : Context params .power bars first ts ws os) (hfirst : BeginsWith first [f])
      (hf : f.kind = .function) (ho : o.kind = .leftParen) :
    Reads params (ts ++ [f, o]) ⟨os, .call f.text pos 0 :: ws, .callOpen⟩
  /-- a value stands last -/
  | value {bars first ts ws os us e} (hc : Context params .power bars first ts ws os)
      (he : Phrase params .postfixed bars us e) (hfirst : BeginsWith first us) (hheight : e.height ≤ depthLimit) :
    Reads params (ts ++ us) ⟨e.operand :: os, ws, lastOf us⟩

section

variable {params : List Param} {bars : Bool} {first : Option Token} {ts us : List Token} {t : Token}
  {s s' : Assembly} {ws ws' : List Waiting} {os os' : List Operand} {e : Expr}

theorem Context.signed_of_sum (hc : Context params .sum bars first ts ws os) :
    Context params .signed bars first ts ws os :=
  (hc.lift rfl).lift rfl

theorem Reads.start : Reads params [] .start := .due Context.start.signed_of_sum

/-- without a value last, a value with its signs is due -/
theorem Reads.context (h : Reads params ts s) (hs : s.last.isValue = false) :
    ∃ bars, Context params .signed bars none ts s.waiting s.operands := by
  cases h with
  | due hc => exact ⟨_, hc⟩
  | callDue hc hfirst hf ho => exact ⟨_, (Context.call hc hfirst hf ho).signed_of_sum⟩
  | value => simp at hs

/-! ## Values -/

/-- where a value begins, a factor is due that begins with the token -/
theorem Reads.beginValue (h : Reads params ts s)
    (hbar : s.last.isValue = true → t.kind = .bar → s.insideBars = false) (ht : s.beginValue t = .ok s') :
    ∃ bars first, Context params .power bars first ts s'.waiting s'.operands ∧ BeginsWith first [t] := by
  by_cases hs : s.last.isValue = true
  · cases h with
    | due | callDue => simp [Last.isValue] at hs
    | @value bars _ _ ws os us e hc he hfirst hheight =>
      have hid : lastOf us = .identifier → t.kind = .leftParen := by
        intro hl
        by_contra hk
        simp [Assembly.beginValue, hl, hk] at ht
      have hbinary : Assembly.binary ⟨e.operand :: os, ws, lastOf us⟩ .mul t.start = .ok s' := by
        unfold Assembly.beginValue at ht
        cases hl : lastOf us <;> simp_all [lastOf] <;> split at hl <;> simp_all
      obtain ⟨⟨ws', os'⟩, hreduce, hs'⟩ := bind_eq_ok_iff.1 hbinary
      obtain rfl := Except.ok.inj hs'
      obtain ⟨ts', us', ws', os', e', hc', he', hts, -, hreduce⟩ :=
        hc.toProduct (fun _ => id) (.inr (.inr rfl)) (he.lift rfl) hfirst hheight hreduce
      rw [reduceWhile_of_head hc'.isReady_product] at hreduce
      obtain ⟨rfl, rfl⟩ := Prod.mk.inj (Except.ok.inj hreduce)
      have hlast : lastOf us' = lastOf us := by
        rw [← lastOf_append he'.ne_nil ts', hts, lastOf_append he.ne_nil]
      refine ⟨bars, some t, hts ▸ hc'.juxtaposed he' ⟨fun u hu hk => ?_, fun hb u hu => ?_⟩, ?_⟩
      · exact ⟨t, rfl, hid (hlast ▸ lastOf_eq_identifier_iff.2 ⟨u, hu, hk⟩)⟩
      · obtain rfl := Option.some.inj hu
        intro hk
        have hinside := hbar hs hk
        rw [hc.insideBars, hb] at hinside
        cases hinside
      · intro u hu
        exact hu
  · rw [Bool.not_eq_true] at hs
    rw [Assembly.beginValue_of_due hs] at ht
    obtain rfl := Except.ok.inj ht
    obtain ⟨bars, hc⟩ := h.context hs
    exact ⟨bars, none, hc.lift rfl, .none _⟩

/-- a token that is a value by itself -/
theorem Reads.leaf (h : Reads params ts s) (hk : t.kind ≠ .bar) (ht : s.beginValue t = .ok s')
    (he : ∀ bars, Phrase params .atom bars [t] e) (hheight : e.height = 1) :
    Reads params (ts ++ [t]) (s'.leaf e (lastOf [t])) := by
  obtain ⟨bars, first, hc, hfirst⟩ := h.beginValue (fun _ hb => absurd hb hk) ht
  have hvalue := Reads.value hc ((he bars).lift rfl) hfirst (by rw [hheight]; decide)
  rwa [Expr.operand, hheight] at hvalue

/-! ## Operators -/

/-- a binary operator behind a value -/
theorem Reads.binary (h : Reads params ts s) (hs : s.last.isValue = true)
    (hk : t.kind = .operator ∨ t.kind = .keyword ∧ t.text = "mod") {op : BinaryOp}
    (hop : BinaryOp.ofText? t.text = some op) (ht : s.binary op t.start = .ok s') : Reads params (ts ++ [t]) s' := by
  cases h with
  | due | callDue => simp [Last.isValue] at hs
  | value hc he hfirst hheight =>
    obtain ⟨⟨ws', os'⟩, hreduce, hs'⟩ := bind_eq_ok_iff.1 ht
    obtain rfl := Except.ok.inj hs'
    obtain hsum | hproduct | ⟨hpow, rfl⟩ := signs_of_ofText hk hop
    · have hprec : op.precedence = 1 := hsum.precedence_eq
      obtain ⟨ts', us', ws', os', e', hc', he', hts, -, hreduce⟩ :=
        hc.toSum (fun w hw => by simp [BinaryOp.yieldsTo_sum hprec, Level.yields, hw]) (he.lift rfl) hfirst hheight hreduce
      rw [reduceWhile_of_head ((BinaryOp.joins_sum hprec).stops _ hc'.isReady_sum)] at hreduce
      obtain ⟨rfl, rfl⟩ := Prod.mk.inj (Except.ok.inj hreduce)
      rw [← hts]
      exact .due ((hc'.sum he' hsum).lift rfl)
    · have hprec : op.precedence = 2 := hproduct.precedence_eq
      obtain ⟨ts', us', ws', os', e', hc', he', hts, -, hreduce⟩ :=
        hc.toProduct (fun w hw => (BinaryOp.joins_product hprec).completes w hw) (.inr (.inr rfl)) (he.lift rfl) hfirst
          hheight hreduce
      rw [reduceWhile_of_head ((BinaryOp.joins_product hprec).stops _ hc'.isReady_product)] at hreduce
      obtain ⟨rfl, rfl⟩ := Prod.mk.inj (Except.ok.inj hreduce)
      rw [← hts]
      exact .due (hc'.product he' hproduct)
    · rw [reduceWhile_of_head fun w _ => BinaryOp.yieldsTo_pow w] at hreduce
      obtain ⟨rfl, rfl⟩ := Prod.mk.inj (Except.ok.inj hreduce)
      exact .due (hc.power he hfirst hpow)

/-- the factorial sign behind a value -/
theorem Reads.factorial (h : Reads params ts s) (ht : IsOperator t "!") (hs' : s.factorial t.start = .ok s') :
    Reads params (ts ++ [t]) s' := by
  unfold Assembly.factorial at hs'
  split at hs'
  case isFalse => cases hs'
  case isTrue hs =>
    cases h with
    | due | callDue => simp [Last.isValue] at hs
    | @value _ _ ts ws os us e hc he hfirst hheight =>
      simp only [pushUnary_operand, pushNode_operand] at hs'
      split at hs'
      case isFalse => cases hs'
      case isTrue hfac =>
        obtain rfl := Except.ok.inj hs'
        have hvalue := Reads.value hc (he.factorial ht) (hfirst.append _) hfac
        rwa [lastOf_snoc (by simp [ht.1]), ← List.append_assoc] at hvalue

/-- a sign where a value is due -/
theorem Reads.sign (h : Reads params ts s) (hs : s.last.isValue = false) (hk : t.kind = .operator)
    (ht : s.sign t = .ok s') : Reads params (ts ++ [t]) s' := by
  obtain ⟨bars, hc⟩ := h.context hs
  unfold Assembly.sign at ht
  split at ht
  case h_1 htext =>
    obtain rfl := Except.ok.inj ht
    exact .due (hc.minus ⟨hk, htext⟩)
  case h_2 htext =>
    obtain rfl := Except.ok.inj ht
    exact .due (hc.plus ⟨hk, htext⟩)
  case h_3 => cases ht

/-- an operator or the word `mod` -/
theorem Reads.operator (h : Reads params ts s) (hk : t.kind = .operator ∨ t.kind = .keyword ∧ t.text = "mod")
    (ht : s.operator t = .ok s') : Reads params (ts ++ [t]) s' := by
  unfold Assembly.operator at ht
  split at ht
  case isTrue htext => exact h.factorial ⟨hk.elim id fun hm => by simp [htext] at hm, htext⟩ ht
  case isFalse =>
    split at ht
    case isTrue hs =>
      split at ht
      case h_1 op hop => exact h.binary hs hk hop ht
      case h_2 => cases ht
    case isFalse hs =>
      rw [Bool.not_eq_true] at hs
      obtain hk | ⟨-, htext⟩ := hk
      · exact h.sign hs hk ht
      · simp [Assembly.sign, htext] at ht

/-! ## Brackets -/

/-- a value down to the bracket in front of it: a sum, with the bracket on top of what waits -/
theorem Context.reduceToBracket {pos : Nat} (hc : Context params .power bars first ts ws os)
    (he : Phrase params .postfixed bars us e) (hfirst : BeginsWith first us) (hheight : e.height ≤ depthLimit)
    (h : reduceToBracket pos ws (e.operand :: os) = .ok (ws', os')) :
    ∃ ts' us' os'' e', Context params .sum bars none ts' ws' os'' ∧ Phrase params .sum bars us' e' ∧
      ts' ++ us' = ts ++ us ∧ e'.height ≤ depthLimit ∧ os' = e'.operand :: os'' := by
  obtain ⟨ts', us', ws'', os'', e', hc', he', hts, hheight', h⟩ :=
    hc.toSum (fun w hw => by simp [hw]) (he.lift rfl) hfirst hheight h
  rw [reduceWhile_of_head fun w hw => by simp [hc'.isReady_sum w hw]] at h
  obtain ⟨rfl, rfl⟩ := Prod.mk.inj (Except.ok.inj h)
  exact ⟨ts', us', os'', e', hc', he', hts, hheight', rfl⟩

/-- an argument behind the bracket of a call or a comma: the call with this argument last -/
theorem Context.openCall {name : String} {pos commas : Nat}
    (hc : Context params .sum bars first ts (.call name pos commas :: ws) os) (he : Phrase params .sum bars us e) :
    ∃ bars' first' ts' us' as os', Context params .power bars' first' ts' ws os' ∧
      Phrase params .openCall bars' us' (.call name (as ++ [e])) ∧ BeginsWith first' us' ∧ ts' ++ us' = ts ++ us ∧
      commas = as.length ∧ os = (as.map Expr.operand).reverse ++ os' := by
  cases hc with
  | @lift level _ _ _ _ _ _ h _ => cases level <;> simp [Level.tighter?] at h
  | @call bars' first' ts' _ _ f o _ hc hfirst hf ho =>
    exact ⟨bars', first', ts', f :: o :: us, [], os, hc, .firstArgument hf ho he, hfirst.append (o :: us), by simp, rfl,
      rfl⟩
  | @argument bars' first' ts' _ os' us' _ as c _ hc has hfirst hcomma =>
    exact ⟨bars', first', ts', us' ++ c :: us, as, os', hc, has.nextArgument hcomma he, hfirst.append _, by simp, rfl,
      rfl⟩

/-- a closing bracket -/
theorem Reads.closeParen (h : Reads params ts s) (hk : t.kind = .rightParen) (ht : s.closeParen t.start = .ok s') :
    Reads params (ts ++ [t]) s' := by
  have hlast (us : List Token) : lastOf (us ++ [t]) = .value := lastOf_snoc (by simp [hk]) us
  unfold Assembly.closeParen at ht
  cases h with
  | due => simp [Last.isValue] at ht
  | @callDue bars _ ts ws os f o pos hc hfirst hf ho =>
    obtain rfl := Except.ok.inj ht
    have hcall : Phrase params .postfixed bars ([f, o] ++ [t]) (.call f.text []) := .lift rfl (.emptyCall hf ho hk)
    have hvalue := Reads.value hc hcall (hfirst.append _) (by simp [Expr.height, Expr.heightAll, depthLimit])
    rwa [hlast, ← List.append_assoc] at hvalue
  | @value _ _ ts ws os us e hc he hfirst hheight =>
    have hne : lastOf us ≠ .callOpen := by
      intro h
      simpa [h, Last.isValue] using isValue_lastOf us
    simp only [if_neg hne, isValue_lastOf, if_true] at ht
    obtain ⟨⟨ws', os'⟩, hreduce, ht⟩ := bind_eq_ok_iff.1 ht
    obtain ⟨ts', us', os'', e', hc', he', hts, hheight', rfl⟩ := hc.reduceToBracket he hfirst hheight hreduce
    rw [← hts]
    split at ht
    case h_1 hws =>
      obtain rfl : ws' = _ := hws
      obtain rfl := Except.ok.inj ht
      cases hc' with
      | @lift level _ _ _ _ _ _ h _ => cases level <;> simp [Level.tighter?] at h
      | @group _ _ ts'' _ _ o _ hc hfirst ho =>
        have hvalue := Reads.value hc (.lift rfl (.group ho he' hk)) (hfirst.append (us' ++ [t])) hheight'
        rw [hlast] at hvalue
        simpa using hvalue
    case h_2 name opened commas rest hws =>
      obtain rfl : ws' = _ := hws
      obtain ⟨bars', first', ts'', us'', as, os''', hc, hcall, hfirst, hts', rfl, rfl⟩ := hc'.openCall he'
      obtain ⟨os, hpush, ht⟩ := bind_eq_ok_iff.1 ht
      obtain rfl := Except.ok.inj ht
      rw [pushCall_snoc, pushNode_operand] at hpush
      split at hpush
      case isFalse => cases hpush
      case isTrue hheight =>
        obtain rfl := Except.ok.inj hpush
        have hvalue := Reads.value hc (.lift rfl (.call hcall hk)) (hfirst.append [t]) hheight
        rwa [hlast, ← List.append_assoc, hts'] at hvalue
    case h_3 => cases ht

/-- a closing bar -/
theorem Reads.closeBar (h : Reads params ts s) (hs : s.last.isValue = true) (hinside : s.insideBars = true)
    (hk : t.kind = .bar) (ht : s.closeBar t.start = .ok s') : Reads params (ts ++ [t]) s' := by
  cases h with
  | due | callDue => simp [Last.isValue] at hs
  | @value bars _ ts ws os us e hc he hfirst hheight =>
    rw [hc.insideBars] at hinside
    obtain ⟨⟨ws', os'⟩, hreduce, ht⟩ := bind_eq_ok_iff.1 ht
    obtain ⟨ts', us', os'', e', hc', he', hts, hheight', rfl⟩ := hc.reduceToBracket he hfirst hheight hreduce
    rw [← hts]
    subst hinside
    cases hc' with
    | @lift level _ _ _ _ _ _ h _ => cases level <;> simp [Level.tighter?] at h
    | @modulus _ _ ts'' _ _ o _ hc hfirst ho =>
      simp only [pushUnary_operand, pushNode_operand] at ht
      split at ht
      case isFalse => cases ht
      case isTrue habs =>
        obtain rfl := Except.ok.inj ht
        have hvalue := Reads.value hc (.lift rfl (.modulus ho he' hk)) (hfirst.append (us' ++ [t])) habs
        rw [lastOf_snoc (by simp [hk]) (o :: us')] at hvalue
        simpa using hvalue

/-- a comma -/
theorem Reads.comma (h : Reads params ts s) (hk : t.kind = .comma) (ht : s.comma t.start = .ok s') :
    Reads params (ts ++ [t]) s' := by
  unfold Assembly.comma at ht
  cases h with
  | due | callDue => simp [Last.isValue] at ht
  | value hc he hfirst hheight =>
    simp only [isValue_lastOf, if_true] at ht
    obtain ⟨⟨ws', os'⟩, hreduce, ht⟩ := bind_eq_ok_iff.1 ht
    obtain ⟨ts', us', os'', e', hc', he', hts, -, rfl⟩ := hc.reduceToBracket he hfirst hheight hreduce
    rw [← hts]
    split at ht
    case h_1 name opened commas rest hws =>
      obtain rfl : ws' = _ := hws
      obtain rfl := Except.ok.inj ht
      obtain ⟨bars', first', ts'', us'', as, os''', hc, hcall, hfirst, hts', rfl, rfl⟩ := hc'.openCall he'
      have hargument : Context params .sum false none (ts'' ++ us'' ++ [t])
          (.call name opened (as ++ [e']).length :: rest) (((as ++ [e']).map Expr.operand).reverse ++ os''') :=
        .argument hc hcall hfirst hk
      rw [hts'] at hargument
      simpa using Reads.due hargument.signed_of_sum
    case h_2 => cases ht

/-! ## Tokens -/

/-- a number that can be read -/
theorem Reads.number (h : Reads params ts s) (hk : t.kind = .number) (ht : s.number t = .ok s') :
    Reads params (ts ++ [t]) s' := by
  obtain ⟨s₁, hbegin, ht⟩ := bind_eq_ok_iff.1 ht
  split at ht
  case h_1 x hx =>
    obtain rfl := Except.ok.inj ht
    have hleaf := h.leaf (by simp [hk]) hbegin (fun _ => .number hk hx) rfl
    simpa [lastOf, hk] using hleaf
  case h_2 => cases ht

/-- an identifier is a parameter or else a constant -/
theorem Phrase.named (hk : t.kind = .identifier) : Phrase params .atom bars [t] (Assembly.named params t.text) := by
  unfold Assembly.named
  split
  case h_1 p hp => exact .param hk hp
  case h_2 hp => exact .name hk fun p hmem => by simpa using List.find?_eq_none.1 hp p hmem

theorem named_height (name : String) : (Assembly.named params name).height = 1 := by
  unfold Assembly.named
  split <;> rfl

/-- a bar, opening or closing -/
theorem Reads.bar (h : Reads params ts s) (hk : t.kind = .bar) (ht : s.bar t = .ok s') :
    Reads params (ts ++ [t]) s' := by
  unfold Assembly.bar at ht
  split at ht
  case isTrue hclose =>
    rw [Bool.and_eq_true] at hclose
    exact h.closeBar hclose.1 hclose.2 hk ht
  case isFalse hopen =>
    obtain ⟨s₁, hbegin, ht⟩ := bind_eq_ok_iff.1 ht
    obtain rfl := Except.ok.inj ht
    obtain ⟨bars, first, hc, hfirst⟩ := h.beginValue (fun hs _ => by simpa [hs] using hopen) hbegin
    exact .due (hc.modulus hfirst hk).signed_of_sum

/-- **Every token preserves the invariant**, as long as it is accepted. -/
theorem Reads.step (h : Reads params ts s) (ht : s.step params t = .ok s') : Reads params (ts ++ [t]) s' := by
  unfold Assembly.step at ht
  split at ht
  case h_1 hk => exact h.number hk ht
  case h_2 hk =>
    obtain ⟨s₁, hbegin, ht⟩ := bind_eq_ok_iff.1 ht
    obtain rfl := Except.ok.inj ht
    have hleaf := h.leaf (by simp [hk]) hbegin (fun _ => .named hk) (named_height _)
    simpa [lastOf, hk] using hleaf
  case h_3 hk =>
    obtain ⟨s₁, hbegin, ht⟩ := bind_eq_ok_iff.1 ht
    obtain rfl := Except.ok.inj ht
    have hleaf := h.leaf (by simp [hk]) hbegin (fun _ => .constant hk) rfl
    simpa [lastOf, hk] using hleaf
  case h_4 hk =>
    obtain ⟨s₁, hbegin, ht⟩ := bind_eq_ok_iff.1 ht
    obtain rfl := Except.ok.inj ht
    obtain ⟨bars, first, hc, hfirst⟩ := h.beginValue (fun _ hb => by simp [hk] at hb) hbegin
    exact .due (hc.group hfirst hk).signed_of_sum
  case h_5 hk => exact h.closeParen hk ht
  case h_6 hk => exact h.comma hk ht
  case h_7 hk => exact h.bar hk ht
  case h_8 hk => exact h.operator (.inl hk) ht
  case h_9 hk =>
    split at ht
    case isTrue hm => exact h.operator (.inr ⟨hk, hm⟩) ht
    case isFalse => cases ht
  case h_10 => cases ht

/-- the name of a function and the bracket behind it -/
theorem Reads.call {f o : Token} (h : Reads params ts s) (hf : f.kind = .function) (ho : o.kind = .leftParen)
    (ht : s.beginValue f = .ok s') :
    Reads params (ts ++ [f, o]) (s'.opened (.call f.text f.start 0) .callOpen) := by
  obtain ⟨bars, first, hc, hfirst⟩ := h.beginValue (fun _ hb => by simp [hf] at hb) ht
  exact .callDue hc hfirst hf ho

/-- at the end of the tokens the value that stands last is a sum in front of which nothing stands -/
theorem Reads.finish (h : Reads params ts s) {stop : Nat} (hfinish : s.finish stop = .ok e) :
    Phrase params .sum false ts e ∧ e.height ≤ depthLimit := by
  unfold Assembly.finish at hfinish
  cases h with
  | due | callDue => simp [Last.isValue] at hfinish
  | value hc he hfirst hheight =>
    simp only [isValue_lastOf, if_true] at hfinish
    obtain ⟨⟨ws', os'⟩, hreduce, hfinish⟩ := bind_eq_ok_iff.1 hfinish
    obtain ⟨ts', us', ws'', os'', e', hc', he', hts, hheight', hreduce⟩ :=
      hc.toSum (fun _ _ => rfl) (he.lift rfl) hfirst hheight hreduce
    rw [← hts]
    cases hc' with
    | start =>
      obtain ⟨rfl, rfl⟩ := Prod.mk.inj (Except.ok.inj hreduce)
      obtain rfl := Except.ok.inj hfinish
      exact ⟨he', hheight'⟩
    | @lift level _ _ _ _ _ _ h _ => cases level <;> simp [Level.tighter?] at h
    -- an open bracket is never completed
    | group | modulus | call | argument => simp [reduceWhile, reduce] at hreduce

/-- **A run that comes to an end** has read a sum. -/
theorem Reads.run {stop : Nat} (h : Reads params ts s) (hrun : s.run params stop us = .ok e) :
    Phrase params .sum false (ts ++ us) e ∧ e.height ≤ depthLimit := by
  fun_induction Assembly.run params stop s us generalizing ts with
  | case1 s => simpa using h.finish hrun
  | case2 | case3 | case5 | case6 => cases hrun
  | case4 s f hf s' o rest hbegin ho ih => simpa using ih (h.call hf ho hbegin) hrun
  | case7 s t rest hk s' hstep ih => simpa using ih (h.step hstep) hrun

end

/-! ## Acceptance -/

/-- **Soundness.** Accepted tokens are a sum with the tree that is built, and the tree is not too high. -/
theorem phrase_of_ofTokens {params : List Param} {stop : Nat} {tokens : List Token} {e : Expr}
    (h : Expr.ofTokens params stop tokens = .ok e) : Phrase params .sum false tokens e ∧ e.height ≤ depthLimit := by
  simpa using Reads.start.run h

/-- **Acceptance.** Exactly the sums whose tree is not too high are accepted, each with its tree. -/
theorem ofTokens_eq_ok_iff (params : List Param) (stop : Nat) (tokens : List Token) (e : Expr) :
    Expr.ofTokens params stop tokens = .ok e ↔ Phrase params .sum false tokens e ∧ e.height ≤ depthLimit := by
  constructor
  · exact phrase_of_ofTokens
  · rintro ⟨h, hheight⟩
    exact ofTokens_of_phrase h hheight stop

end ComplexFormula.Grammar

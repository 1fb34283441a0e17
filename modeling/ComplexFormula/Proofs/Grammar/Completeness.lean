/-
Every phrase is read. Running the assembly over the tokens of a phrase, from wherever a value is due, adds operators
and operands to the stacks that settle to the tree of the phrase; what stood on the stacks before is not touched.

- `lastOf`: what the assembly remembers of the last token of a value.
- `Runs`: the run over the tokens of a phrase.
- `Phrase.runs`: every phrase has such a run, by induction on the grammar.
- `ofTokens_of_phrase`: **completeness**, a sum that is not too high is accepted with its tree.
-/
import ComplexFormula.Proofs.Grammar.Settling

namespace ComplexFormula

open Grammar

/-! ## The last token -/

/-- what is remembered of tokens that end a value -/
def lastOf (ts : List Token) : Last := if ts.getLast?.any (·.kind == .identifier) then .identifier else .value

@[simp] theorem isValue_lastOf (ts : List Token) : (lastOf ts).isValue = true := by
  unfold lastOf
  split <;> rfl

theorem lastOf_append {us : List Token} (h : us ≠ []) (ts : List Token) : lastOf (ts ++ us) = lastOf us := by
  obtain ⟨t, ht⟩ := Option.ne_none_iff_exists'.1 (mt List.getLast?_eq_none_iff.1 h)
  simp [lastOf, List.getLast?_append, ht]

theorem lastOf_snoc {t : Token} (h : t.kind ≠ .identifier) (ts : List Token) : lastOf (ts ++ [t]) = .value := by
  simp [lastOf, h]

theorem lastOf_eq_identifier_iff {ts : List Token} :
    lastOf ts = .identifier ↔ ∃ t ∈ ts.getLast?, t.kind = .identifier := by
  simp [lastOf, Option.any_eq_true]

namespace Assembly

/-! ## Brackets -/

theorem insideBars_cons {w : Waiting} {ws : List Waiting} {os : List Operand} {last : Last} (h : w.isBracket = false) :
    insideBars ⟨os, w :: ws, last⟩ = insideBars ⟨os, ws, last⟩ := by
  simp [insideBars, h]

theorem insideBars_bracket {w : Waiting} {ws : List Waiting} {os : List Operand} {last : Last}
    (h : w.isBracket = true) : insideBars ⟨os, w :: ws, last⟩ = w.isBar := by
  simp [insideBars, h]

theorem insideBars_append {seg ws : List Waiting} {os os' : List Operand} {last last' : Last}
    (h : ∀ w ∈ seg, w.isBracket = false) : insideBars ⟨os, seg ++ ws, last⟩ = insideBars ⟨os', ws, last'⟩ := by
  have hseg : seg.find? Waiting.isBracket = none := List.find?_eq_none.2 fun w hw => by simp [h w hw]
  simp [insideBars, List.find?_append, hseg]

/-! ## Single tokens -/

section

variable {params : List Param} {stop : Nat} {s s' : Assembly} {t : Token} {ts : List Token}

theorem run_of_ne_function (ht : t.kind ≠ .function) : s.run params stop (t :: ts) =
    match s.step params t with
    | .error fault => .error fault
    | .ok s => s.run params stop ts := by
  rw [run.eq_def]
  exact if_neg ht

theorem run_cons (ht : t.kind ≠ .function) (h : s.step params t = .ok s') :
    s.run params stop (t :: ts) = s'.run params stop ts := by
  rw [run_of_ne_function ht, h]

/-- the name of a function and the bracket behind it -/
theorem run_call {o : Token} (ht : t.kind = .function) (ho : o.kind = .leftParen) (h : s.beginValue t = .ok s') :
    s.run params stop (t :: o :: ts) = (s'.opened (.call t.text t.start 0) .callOpen).run params stop ts := by
  rw [run.eq_def]
  simp only [ht, h, ho, if_true]

theorem beginValue_of_due (hs : s.last.isValue = false) : s.beginValue t = .ok s := by
  unfold beginValue
  cases hl : s.last <;> simp_all [Last.isValue]

theorem step_minus (hs : s.last.isValue = false) (ht : IsOperator t "-") :
    s.step params t = .ok (s.opened .neg .operator) := by
  simp [step, ht.1, operator, ht.2, hs, sign]

theorem step_plus (hs : s.last.isValue = false) (ht : IsOperator t "+") :
    s.step params t = .ok { s with last := .operator } := by
  simp [step, ht.1, operator, ht.2, hs, sign]

/-- an operator behind a value stands between two operands -/
theorem step_binary (hs : s.last.isValue = true) (hk : t.kind = .operator ∨ t.kind = .keyword ∧ t.text = "mod")
    {op : BinaryOp} (hop : BinaryOp.ofText? t.text = some op) : s.step params t = s.binary op t.start := by
  have htext : t.text ≠ "!" := by
    intro h
    simp [h, BinaryOp.ofText?] at hop
  have hoperator : s.operator t = s.binary op t.start := by
    simp only [operator, if_neg htext, hs, if_true, hop]
  rcases hk with hk | ⟨hk, hm⟩
  · simpa only [step, hk] using hoperator
  · simpa only [step, hk, hm, if_true] using hoperator

/-- a value that begins behind another value is a factor: the run goes on as if the sign had been written -/
theorem run_juxtaposed (hs : s.last.isValue = true) (ht : beginsValue t.kind = true)
    (hbar : t.kind = .bar → s.insideBars = false) (hid : s.last = .identifier → t.kind = .leftParen)
    (hmul : s.binary .mul t.start = .ok s') (hs' : s'.last = .operator) :
    s.run params stop (t :: ts) = s'.run params stop (t :: ts) := by
  have hbegin : s.beginValue t = .ok s' := by
    unfold beginValue
    cases hl : s.last with
    | value => exact hmul
    | identifier => simpa [hid hl] using hmul
    | operator | callOpen => simp [hl, Last.isValue] at hs
  have hbegin' : s'.beginValue t = .ok s' := beginValue_of_due (by rw [hs']; rfl)
  by_cases hf : t.kind = .function
  · rw [run.eq_def, run.eq_def]
    simp only [hbegin, hbegin', hf, if_true]
  · have hstep : s.step params t = s'.step params t := by
      have hdue : s'.last.isValue = false := by rw [hs']; rfl
      cases hk : t.kind <;> simp_all [step, number, bar, beginsValue]
    rw [run_of_ne_function hf, run_of_ne_function hf, hstep]

end

end Assembly

namespace Grammar

/-! ## Runs over phrases -/

/-- the state s over which operators and operands have been added by the tokens of a value -/
def above (s : Assembly) (seg : List Waiting) (ops : List Operand) (ts : List Token) : Assembly :=
  ⟨ops ++ s.operands, seg ++ s.waiting, lastOf ts⟩

/-- the run over the tokens of a phrase from any state in which it is due -/
def Runs (params : List Param) (level : Level) (bars : Bool) (ts : List Token) (e : Expr) : Prop :=
  ∀ s : Assembly, s.last.isValue = false → s.insideBars = bars → level.IsReady s.waiting →
    ∃ seg ops, Settles seg ops e ∧ (∀ w ∈ seg, level.yields w = true) ∧
      ∀ stop rest, s.run params stop (ts ++ rest) = (above s seg ops ts).run params stop rest

/-- the run over a call up to the end of an argument: the call waits with the arguments in front of this one -/
def RunsCall (params : List Param) (ts : List Token) (e : Expr) : Prop :=
  ∀ s : Assembly, s.last.isValue = false →
    ∃ name as a seg ops pos, e = .call name (as ++ [a]) ∧ Settles seg ops a ∧ (∀ w ∈ seg, w.isBracket = false) ∧
      ∀ stop rest, s.run params stop (ts ++ rest) =
        (above s (seg ++ [.call name pos as.length]) (ops ++ (as.map Expr.operand).reverse) ts).run params stop rest

section

variable {params : List Param} {level left right : Level} {bars : Bool} {ts us : List Token} {t : Token} {a b e : Expr}
  {op : BinaryOp}

theorem insideBars_above {s : Assembly} {seg : List Waiting} {ops : List Operand}
    (h : ∀ w ∈ seg, level.yields w = true) : (above s seg ops ts).insideBars = s.insideBars :=
  Assembly.insideBars_append fun w hw => Level.isBracket_of_yields (h w hw)

/-- the operator completes the phrase in front of it -/
theorem binary_above (hj : Joins op left right level) {s : Assembly} {seg : List Waiting} {ops : List Operand}
    (hset : Settles seg ops a) (hy : ∀ w ∈ seg, left.yields w = true) (hr : level.IsReady s.waiting) (pos : Nat) :
    (above s seg ops ts).binary op pos = .ok ⟨a.operand :: s.operands, .binary op :: s.waiting, .operator⟩ := by
  have hreduce : reduceWhile (Waiting.yieldsTo op) pos (seg ++ s.waiting) (ops ++ s.operands) =
      .ok (s.waiting, a.operand :: s.operands) := by
    rw [hset _ _ _ _ fun w hw => hj.completes w (hy w hw)]
    exact reduceWhile_of_head (hj.stops _ hr)
  simp only [Assembly.binary, above, hreduce]
  rfl

/-- the phrase behind the operator, and with it the joined phrase -/
theorem Runs.joined (hj : Joins op left right level) (hb : Runs params right bars us b)
    (hab : (Expr.binary op.name a b).height ≤ depthLimit) (hus : us ≠ []) (s : Assembly) (hbars : s.insideBars = bars)
    (front : List Token) :
    ∃ seg ops, Settles seg ops (.binary op.name a b) ∧ (∀ w ∈ seg, level.yields w = true) ∧
      ∀ stop rest, Assembly.run params stop ⟨a.operand :: s.operands, .binary op :: s.waiting, .operator⟩ (us ++ rest) =
        (above s seg ops (front ++ us)).run params stop rest := by
  obtain ⟨seg, ops, hset, hy, hrun⟩ := hb ⟨a.operand :: s.operands, .binary op :: s.waiting, .operator⟩ rfl
    ((Assembly.insideBars_cons rfl).trans hbars) (hj.right_ready _)
  refine ⟨seg ++ [.binary op], ops ++ [a.operand], hset.binary hab, ?_, ?_⟩
  · intro w hw
    rcases List.mem_append.1 hw with hw | hw
    · exact hj.right_yields w (hy w hw)
    · rw [List.mem_singleton.1 hw]; exact hj.yields
  · intro stop rest
    rw [hrun]
    simp [above, lastOf_append hus]

/-- two phrases with an operator between them -/
theorem Runs.binary (hj : Joins op left right level) (ha : Runs params left bars ts a)
    (hk : t.kind = .operator ∨ t.kind = .keyword ∧ t.text = "mod") (hop : BinaryOp.ofText? t.text = some op)
    (hb : Runs params right bars us b) (hab : (Expr.binary op.name a b).height ≤ depthLimit) (hus : us ≠ []) :
    Runs params level bars (ts ++ t :: us) (.binary op.name a b) := by
  intro s hs hbars hr
  obtain ⟨seg, ops, hset, hy, hrun⟩ := ha s hs hbars (hj.left_ready _ hr)
  obtain ⟨seg', ops', hset', hy', hrun'⟩ := hb.joined hj hab hus s hbars (ts ++ [t])
  refine ⟨seg', ops', hset', hy', ?_⟩
  intro stop rest
  have hstep : (above s seg ops ts).step params t =
      .ok ⟨a.operand :: s.operands, .binary op :: s.waiting, .operator⟩ := by
    rw [Assembly.step_binary (isValue_lastOf ts) hk hop]
    exact binary_above hj hset hy hr _
  have hkf : t.kind ≠ .function := by rcases hk with hk | ⟨hk, _⟩ <;> simp [hk]
  calc s.run params stop (ts ++ t :: us ++ rest)
      = (above s seg ops ts).run params stop (t :: (us ++ rest)) := by rw [List.append_assoc, hrun, List.cons_append]
    _ = Assembly.run params stop ⟨a.operand :: s.operands, .binary op :: s.waiting, .operator⟩ (us ++ rest) :=
        Assembly.run_cons hkf hstep
    _ = (above s seg' ops' (ts ++ [t] ++ us)).run params stop rest := hrun' stop rest
    _ = (above s seg' ops' (ts ++ t :: us)).run params stop rest := by rw [List.append_assoc]; rfl

/-- two phrases side by side -/
theorem Runs.juxtaposed (ha : Runs params .product bars ts a) (hb : Runs params .power bars us b)
    (hbegins : ∃ u us', us = u :: us' ∧ beginsValue u.kind = true) (hadj : Adjacent bars ts us)
    (hab : (Expr.binary "mul" a b).height ≤ depthLimit) :
    Runs params .product bars (ts ++ us) (.binary "mul" a b) := by
  intro s hs hbars hr
  obtain ⟨u, us', rfl, hu⟩ := hbegins
  obtain ⟨seg, ops, hset, hy, hrun⟩ := ha s hs hbars hr
  obtain ⟨seg', ops', hset', hy', hrun'⟩ :=
    hb.joined BinaryOp.joins_juxtaposed hab (List.cons_ne_nil _ _) s hbars ts
  refine ⟨seg', ops', hset', hy', ?_⟩
  intro stop rest
  have hbar : u.kind = .bar → (above s seg ops ts).insideBars = false := by
    intro hk
    rw [insideBars_above hy, hbars]
    cases hb : bars
    · rfl
    · exact absurd hk (hadj.2 hb u rfl)
  have hid : (above s seg ops ts).last = .identifier → u.kind = .leftParen := by
    intro hl
    obtain ⟨t, ht, hk⟩ := lastOf_eq_identifier_iff.1 hl
    obtain ⟨v, hv, hvk⟩ := hadj.1 t ht hk
    obtain rfl := Option.some.inj hv
    exact hvk
  have hbinary : (above s seg ops ts).binary .mul u.start =
      .ok ⟨a.operand :: s.operands, .binary .mul :: s.waiting, .operator⟩ :=
    binary_above BinaryOp.joins_juxtaposed hset hy hr _
  calc s.run params stop (ts ++ u :: us' ++ rest)
      = (above s seg ops ts).run params stop (u :: (us' ++ rest)) := by rw [List.append_assoc, hrun, List.cons_append]
    _ = Assembly.run params stop ⟨a.operand :: s.operands, .binary .mul :: s.waiting, .operator⟩ (u :: us' ++ rest) :=
        Assembly.run_juxtaposed (isValue_lastOf ts) hu hbar hid hbinary rfl
    _ = (above s seg' ops' (ts ++ u :: us')).run params stop rest := hrun' stop rest

/-! ## Signs, leaves and brackets -/

theorem Runs.lift {tighter : Level} (h : level.tighter? = some tighter) (he : Runs params tighter bars ts e) :
    Runs params level bars ts e := by
  intro s hs hbars hr
  obtain ⟨seg, ops, hset, hy, hrun⟩ := he s hs hbars (hr.tighter h)
  exact ⟨seg, ops, hset, fun w hw => Level.yields_of_tighter h (hy w hw), hrun⟩

theorem Runs.minus (ht : IsOperator t "-") (ha : Runs params .signed bars ts a)
    (hheight : (Expr.unary "neg" a).height ≤ depthLimit) (hts : ts ≠ []) :
    Runs params .signed bars (t :: ts) (.unary "neg" a) := by
  intro s hs hbars hr
  obtain ⟨seg, ops, hset, hy, hrun⟩ := ha (s.opened .neg .operator) rfl ((Assembly.insideBars_cons rfl).trans hbars) hr
  refine ⟨seg ++ [.neg], ops, hset.neg hheight, ?_, ?_⟩
  · intro w hw
    rcases List.mem_append.1 hw with hw | hw
    · exact hy w hw
    · rw [List.mem_singleton.1 hw]; rfl
  · intro stop rest
    calc s.run params stop (t :: ts ++ rest)
        = (s.opened .neg .operator).run params stop (ts ++ rest) :=
          Assembly.run_cons (by simp [ht.1]) (Assembly.step_minus hs ht)
      _ = (above (s.opened .neg .operator) seg ops ts).run params stop rest := hrun stop rest
      _ = (above s (seg ++ [.neg]) ops (t :: ts)).run params stop rest := by
          simp [above, Assembly.opened, ← lastOf_append hts [t]]

theorem Runs.plus (ht : IsOperator t "+") (ha : Runs params .signed bars ts a) (hts : ts ≠ []) :
    Runs params .signed bars (t :: ts) a := by
  intro s hs hbars hr
  obtain ⟨seg, ops, hset, hy, hrun⟩ := ha { s with last := .operator } rfl hbars hr
  refine ⟨seg, ops, hset, hy, ?_⟩
  intro stop rest
  calc s.run params stop (t :: ts ++ rest)
      = { s with last := .operator }.run params stop (ts ++ rest) :=
        Assembly.run_cons (by simp [ht.1]) (Assembly.step_plus hs ht)
    _ = (above { s with last := .operator } seg ops ts).run params stop rest := hrun stop rest
    _ = (above s seg ops (t :: ts)).run params stop rest := by simp [above, ← lastOf_append hts [t]]

/-- tokens that leave one operand and nothing waiting -/
theorem Runs.of_operand (h : ∀ s : Assembly, s.last.isValue = false → s.insideBars = bars →
    ∀ stop rest, s.run params stop (ts ++ rest) = (above s [] [e.operand] ts).run params stop rest) :
    Runs params level bars ts e :=
  fun s hs hbars _ => ⟨[], [e.operand], .leaf e, fun _ hw => absurd hw List.not_mem_nil, h s hs hbars⟩

/-- a phrase that leaves nothing waiting leaves one operand -/
theorem Runs.operand (ha : Runs params .postfixed bars ts a) {s : Assembly} (hs : s.last.isValue = false)
    (hbars : s.insideBars = bars) (stop : Nat) (rest : List Token) :
    s.run params stop (ts ++ rest) = (above s [] [a.operand] ts).run params stop rest := by
  obtain ⟨seg, ops, hset, hy, hrun⟩ := ha s hs hbars trivial
  obtain rfl : seg = [] := List.eq_nil_iff_forall_not_mem.2 fun w hw => absurd (hy w hw) (by simp [Level.yields])
  have hops := hset (fun _ => true) 0 [] s.operands (by simp)
  simp only [List.nil_append, reduceWhile_nil, Except.ok.injEq, Prod.mk.injEq, true_and] at hops
  rw [hrun]
  simp [above, hops]

theorem Runs.factorial (ha : Runs params .postfixed bars ts a) (ht : IsOperator t "!")
    (hheight : (Expr.unary "fac" a).height ≤ depthLimit) :
    Runs params .postfixed bars (ts ++ [t]) (.unary "fac" a) := by
  apply Runs.of_operand
  intro s hs hbars stop rest
  have hstep : (above s [] [a.operand] ts).step params t =
      .ok (above s [] [(Expr.unary "fac" a).operand] (ts ++ [t])) := by
    have hlast : lastOf (ts ++ [t]) = .value := lastOf_snoc (by simp [ht.1]) ts
    simp [Assembly.step, ht.1, Assembly.operator, ht.2, Assembly.factorial, above, pushUnary_operand, pushNode_operand,
      hheight, hlast]
  calc s.run params stop (ts ++ [t] ++ rest)
      = (above s [] [a.operand] ts).run params stop (t :: rest) := by
        rw [List.append_assoc, ha.operand hs hbars, List.singleton_append]
    _ = (above s [] [(Expr.unary "fac" a).operand] (ts ++ [t])).run params stop rest :=
        Assembly.run_cons (by simp [ht.1]) hstep

/-- a token that is a value by itself -/
theorem Runs.leaf (hheight : e.height = 1) (hk : t.kind ≠ .function)
    (hstep : ∀ s : Assembly, s.last.isValue = false → s.step params t = .ok (s.leaf e (lastOf [t]))) :
    Runs params level bars [t] e := by
  apply Runs.of_operand
  intro s hs _ stop rest
  rw [List.singleton_append, Assembly.run_cons hk (hstep s hs)]
  simp [Assembly.leaf, above, Expr.operand, hheight]

/-- the tokens between two brackets, down to the opening one -/
theorem Runs.reduceToBracket (ha : Runs params .sum bars ts a) {s : Assembly} (hs : s.last.isValue = false)
    (hbars : s.insideBars = bars) (hr : Level.sum.IsReady s.waiting) :
    ∃ s' : Assembly, s'.last.isValue = true ∧ s'.insideBars = bars ∧
      (∀ pos, reduceToBracket pos s'.waiting s'.operands = .ok (s.waiting, a.operand :: s.operands)) ∧
      ∀ stop rest, s.run params stop (ts ++ rest) = s'.run params stop rest := by
  obtain ⟨seg, ops, hset, hy, hrun⟩ := ha s hs hbars hr
  refine ⟨above s seg ops ts, isValue_lastOf ts, ?_, fun pos => ?_, hrun⟩
  · rw [insideBars_above hy, hbars]
  · refine (hset _ pos _ _ fun w hw => by simp [Level.isBracket_of_yields (hy w hw)]).trans ?_
    exact reduceWhile_of_head fun w hw => by simp [hr w hw]

theorem Runs.group {o c : Token} (ho : o.kind = .leftParen) (ha : Runs params .sum false ts a)
    (hc : c.kind = .rightParen) : Runs params level bars (o :: ts ++ [c]) a := by
  apply Runs.of_operand
  intro s hs _ stop rest
  have hopen : s.step params o = .ok (s.opened (.group o.start) .operator) := by
    simp [Assembly.step, ho, Assembly.beginValue_of_due hs]
  obtain ⟨s', hvalue, -, hreduce, hrun⟩ := ha.reduceToBracket (s := s.opened (.group o.start) .operator) rfl
    (Assembly.insideBars_bracket rfl) (by simp [Level.IsReady, Assembly.opened, Waiting.isBracket])
  have hclose : s'.step params c = .ok (above s [] [a.operand] (o :: ts ++ [c])) := by
    have hlast : lastOf (o :: ts ++ [c]) = .value := lastOf_snoc (by simp [hc]) _
    have hne : s'.last ≠ .callOpen := by intro h; simp [h, Last.isValue] at hvalue
    simp only [Assembly.step, hc, Assembly.closeParen, if_neg hne, hvalue, if_true, hreduce, Assembly.opened, above, hlast]
    rfl
  calc s.run params stop (o :: ts ++ [c] ++ rest)
      = (s.opened (.group o.start) .operator).run params stop (ts ++ c :: rest) := by
        rw [List.append_assoc]
        exact Assembly.run_cons (by simp [ho]) hopen
    _ = s'.run params stop (c :: rest) := hrun stop (c :: rest)
    _ = (above s [] [a.operand] (o :: ts ++ [c])).run params stop rest := Assembly.run_cons (by simp [hc]) hclose

theorem Runs.modulus {o c : Token} (ho : o.kind = .bar) (ha : Runs params .sum true ts a) (hc : c.kind = .bar)
    (hheight : (Expr.unary "abs" a).height ≤ depthLimit) :
    Runs params level bars (o :: ts ++ [c]) (.unary "abs" a) := by
  apply Runs.of_operand
  intro s hs _ stop rest
  have hopen : s.step params o = .ok (s.opened (.bar o.start) .operator) := by
    simp [Assembly.step, ho, Assembly.bar, hs, Assembly.beginValue_of_due hs]
  obtain ⟨s', hvalue, hinside, hreduce, hrun⟩ := ha.reduceToBracket (s := s.opened (.bar o.start) .operator) rfl
    (Assembly.insideBars_bracket rfl) (by simp [Level.IsReady, Assembly.opened, Waiting.isBracket])
  have hclose : s'.step params c = .ok (above s [] [(Expr.unary "abs" a).operand] (o :: ts ++ [c])) := by
    have hlast : lastOf (o :: ts ++ [c]) = .value := lastOf_snoc (by simp [hc]) _
    simp only [Assembly.step, hc, Assembly.bar, hvalue, hinside, Bool.and_self, if_true, Assembly.closeBar, hreduce,
      Assembly.opened, ok_bind, pushUnary_operand, pushNode_operand, hheight, above, hlast]
    rfl
  calc s.run params stop (o :: ts ++ [c] ++ rest)
      = (s.opened (.bar o.start) .operator).run params stop (ts ++ c :: rest) := by
        rw [List.append_assoc]
        exact Assembly.run_cons (by simp [ho]) hopen
    _ = s'.run params stop (c :: rest) := hrun stop (c :: rest)
    _ = (above s [] [(Expr.unary "abs" a).operand] (o :: ts ++ [c])).run params stop rest :=
        Assembly.run_cons (by simp [hc]) hclose

/-! ## Calls -/

theorem Runs.emptyCall {f o c : Token} (hf : f.kind = .function) (ho : o.kind = .leftParen)
    (hc : c.kind = .rightParen) : Runs params level bars [f, o, c] (.call f.text []) := by
  apply Runs.of_operand
  intro s hs _ stop rest
  have hclose : (s.opened (.call f.text f.start 0) .callOpen).step params c =
      .ok (above s [] [(Expr.call f.text []).operand] [f, o, c]) := by
    have hlast : lastOf [f, o, c] = .value := lastOf_snoc (by simp [hc]) [f, o]
    simp [Assembly.step, hc, Assembly.closeParen, Assembly.opened, Assembly.closeEmptyCall, above, hlast, Expr.operand,
      Expr.height, Expr.heightAll]
  calc s.run params stop ([f, o, c] ++ rest)
      = (s.opened (.call f.text f.start 0) .callOpen).run params stop (c :: rest) :=
        Assembly.run_call hf ho (Assembly.beginValue_of_due hs)
    _ = (above s [] [(Expr.call f.text []).operand] [f, o, c]).run params stop rest :=
        Assembly.run_cons (by simp [hc]) hclose

theorem RunsCall.firstArgument {f o : Token} (hf : f.kind = .function) (ho : o.kind = .leftParen)
    (ha : Runs params .sum false ts a) (hts : ts ≠ []) : RunsCall params (f :: o :: ts) (.call f.text [a]) := by
  intro s hs
  obtain ⟨seg, ops, hset, hy, hrun⟩ := ha (s.opened (.call f.text f.start 0) .callOpen) rfl
    (Assembly.insideBars_bracket rfl) (by simp [Level.IsReady, Assembly.opened, Waiting.isBracket])
  refine ⟨f.text, [], a, seg, ops, f.start, rfl, hset, fun w hw => Level.isBracket_of_yields (hy w hw),
    fun stop rest => ?_⟩
  rw [List.cons_append, List.cons_append, Assembly.run_call hf ho (Assembly.beginValue_of_due hs), hrun]
  simp [above, Assembly.opened, ← lastOf_append hts [f, o]]

/-- the end of an argument: the operators of the argument are completed down to the call -/
theorem RunsCall.reduceToBracket {name : String} {as : List Expr} (has : RunsCall params ts (.call name (as ++ [a])))
    {s : Assembly} (hs : s.last.isValue = false) :
    ∃ (s' : Assembly) (pos : Nat), s'.last.isValue = true ∧
      (∀ stop, reduceToBracket stop s'.waiting s'.operands = .ok (.call name pos as.length :: s.waiting,
        ((as ++ [a]).map Expr.operand).reverse ++ s.operands)) ∧
      ∀ stop rest, s.run params stop (ts ++ rest) = s'.run params stop rest := by
  obtain ⟨name', as', a', seg, ops, pos, he, hset, hy, hrun⟩ := has s hs
  obtain ⟨rfl, h⟩ := Expr.call.inj he
  obtain ⟨rfl, h'⟩ := List.append_inj' h rfl
  obtain rfl := List.singleton_inj.1 h'
  refine ⟨_, pos, isValue_lastOf ts, fun stop => ?_, hrun⟩
  simp only [above, List.append_assoc]
  refine (hset _ stop _ _ fun w hw => by simp [hy w hw]).trans ?_
  rw [List.singleton_append, reduceWhile_stop rfl]
  simp

theorem RunsCall.nextArgument {c : Token} {name : String} {as : List Expr} (has : RunsCall params ts (.call name as))
    (hc : c.kind = .comma) (hb : Runs params .sum false us b) (hus : us ≠ []) :
    RunsCall params (ts ++ c :: us) (.call name (as ++ [b])) := by
  intro s hs
  obtain ⟨_, as', a, -, -, -, he, -⟩ := has s hs
  obtain ⟨-, rfl⟩ := Expr.call.inj he
  obtain ⟨s', pos, hvalue, hreduce, hrun⟩ := has.reduceToBracket hs
  have hcomma : s'.step params c = .ok ⟨((as' ++ [a]).map Expr.operand).reverse ++ s.operands,
      .call name pos (as' ++ [a]).length :: s.waiting, .operator⟩ := by
    simp only [Assembly.step, hc, Assembly.comma, hvalue, if_true, hreduce, ok_bind, List.length_append,
      List.length_singleton]
    rfl
  obtain ⟨seg, ops, hset, hy, hrun'⟩ := hb ⟨((as' ++ [a]).map Expr.operand).reverse ++ s.operands,
    .call name pos (as' ++ [a]).length :: s.waiting, .operator⟩ rfl (Assembly.insideBars_bracket rfl)
    (by simp [Level.IsReady, Waiting.isBracket])
  refine ⟨name, as' ++ [a], b, seg, ops, pos, rfl, hset, fun w hw => Level.isBracket_of_yields (hy w hw),
    fun stop rest => ?_⟩
  rw [List.append_assoc, hrun, List.cons_append, Assembly.run_cons (by simp [hc]) hcomma, hrun']
  simp [above, lastOf_append (List.cons_ne_nil c us), ← lastOf_append hus [c]]

theorem RunsCall.close {c : Token} (he : RunsCall params ts e) (hc : c.kind = .rightParen)
    (hheight : e.height ≤ depthLimit) : Runs params level bars (ts ++ [c]) e := by
  apply Runs.of_operand
  intro s hs _ stop rest
  obtain ⟨name, as, a, -, -, -, rfl, -⟩ := he s hs
  obtain ⟨s', pos, hvalue, hreduce, hrun⟩ := he.reduceToBracket hs
  have hclose : s'.step params c = .ok (above s [] [(Expr.call name (as ++ [a])).operand] (ts ++ [c])) := by
    have hne : s'.last ≠ .callOpen := by intro h; simp [h, Last.isValue] at hvalue
    have hpush := pushCall_snoc name as a c.start s.operands
    rw [pushNode_operand, if_pos hheight] at hpush
    simp only [Assembly.step, hc, Assembly.closeParen, if_neg hne, hvalue, if_true, hreduce, ok_bind]
    simp [hpush, above, lastOf_snoc (t := c) (by simp [hc])]
  calc s.run params stop (ts ++ [c] ++ rest)
      = s'.run params stop (c :: rest) := by rw [List.append_assoc, hrun, List.singleton_append]
    _ = (above s [] [(Expr.call name (as ++ [a])).operand] (ts ++ [c])).run params stop rest :=
        Assembly.run_cons (by simp [hc]) hclose

/-! ## Completeness -/

/-- **Every phrase is run over** from any state in which it is due, if its tree is not too high. -/
theorem Phrase.runs (h : Phrase params level bars ts e) (hheight : e.height ≤ depthLimit) :
    if level = .openCall then RunsCall params ts e else Runs params level bars ts e := by
  induction h with
  | @lift level tighter _ _ _ h _ ih =>
    have ih := ih hheight
    cases level <;> cases h <;> exact Runs.lift rfl ih
  | sum ha ht hb iha ihb =>
    obtain ⟨op, hop, rfl, hprec, hk⟩ := ht.operator
    simp only [Expr.height] at hheight
    exact (iha (by omega)).binary (BinaryOp.joins_sum hprec) (.inl hk) hop (ihb (by omega)) hheight hb.ne_nil
  | product ha ht hb iha ihb =>
    obtain ⟨op, hop, rfl, hprec, hk⟩ := ht.operator
    simp only [Expr.height] at hheight
    exact (iha (by omega)).binary (BinaryOp.joins_product hprec) hk hop (ihb (by omega)) hheight hb.ne_nil
  | juxtaposed ha hb hadj iha ihb =>
    simp only [Expr.height] at hheight
    exact (iha (by omega)).juxtaposed (ihb (by omega)) (hb.begins rfl) hadj hheight
  | minus ht ha ih =>
    simp only [Expr.height] at hheight
    exact (ih (by omega)).minus ht hheight ha.ne_nil
  | plus ht ha ih => exact (ih hheight).plus ht ha.ne_nil
  | power ha ht hb iha ihb =>
    simp only [Expr.height] at hheight
    exact (iha (by omega)).binary BinaryOp.joins_pow (.inl ht.1) (by simp [ht.2, BinaryOp.ofText?]) (ihb (by omega))
      hheight hb.ne_nil
  | factorial _ ht ih =>
    simp only [Expr.height] at hheight
    exact (ih (by omega)).factorial ht hheight
  | number ht hx =>
    refine Runs.leaf rfl (by simp [ht]) ?_
    intro s hs
    simp [Assembly.step, ht, Assembly.number, Assembly.beginValue_of_due hs, hx, lastOf]
  | param ht hp =>
    refine Runs.leaf rfl (by simp [ht]) ?_
    intro s hs
    simp [Assembly.step, ht, Assembly.beginValue_of_due hs, Assembly.named, hp, lastOf]
  | @name _ t ht hp =>
    refine Runs.leaf rfl (by simp [ht]) ?_
    intro s hs
    have hnone : params.find? (·.name == t.text) = none := List.find?_eq_none.2 fun p hmem => by simp [hp p hmem]
    simp [Assembly.step, ht, Assembly.beginValue_of_due hs, Assembly.named, hnone, lastOf]
  | constant ht =>
    refine Runs.leaf rfl (by simp [ht]) ?_
    intro s hs
    simp [Assembly.step, ht, Assembly.beginValue_of_due hs, lastOf]
  | group ho _ hc ih => exact Runs.group ho (ih hheight) hc
  | modulus ho _ hc ih =>
    simp only [Expr.height] at hheight
    exact Runs.modulus ho (ih (by omega)) hc hheight
  | emptyCall hf ho hc => exact Runs.emptyCall hf ho hc
  | firstArgument hf ho ha ih =>
    simp only [Expr.height, Expr.heightAll] at hheight
    exact RunsCall.firstArgument hf ho (ih (by omega)) ha.ne_nil
  | nextArgument _ hc hb ihas ihb =>
    simp only [Expr.height, Expr.heightAll_append, Expr.heightAll] at hheight ihas
    exact (ihas (by omega)).nextArgument hc (ihb (by omega)) hb.ne_nil
  | call _ hc ih => exact (ih hheight).close hc hheight

/-- **Completeness.** A sum whose tree is not too high is accepted with its tree. -/
theorem ofTokens_of_phrase (h : Phrase params .sum false ts e) (hheight : e.height ≤ depthLimit) (stop : Nat) :
    Expr.ofTokens params stop ts = .ok e := by
  obtain ⟨seg, ops, hset, -, hrun⟩ := h.runs hheight Assembly.start rfl rfl (by simp [Level.IsReady, Assembly.start])
  have hfinish := hset (fun _ => true) stop [] [] (by simp)
  have hrun := hrun stop []
  rw [List.append_nil] at hrun
  rw [Expr.ofTokens, hrun, Assembly.run]
  simp only [Assembly.finish, above, Assembly.start, isValue_lastOf, if_true, hfinish, reduceWhile_nil, ok_bind]
  rfl

end

end Grammar

end ComplexFormula

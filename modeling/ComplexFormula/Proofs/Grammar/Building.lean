/-
The nodes that an assembly builds. Completing an operator that waits makes a node of the operands on top, and so do a
factorial sign, the bracket that closes a call and the bar that closes a modulus. Every operand carries the height of its
tree and is within the limit, so a node is at most one level too high; and the assembly fails for its depth exactly
where it comes to such a node.

- `Operand.Fits`: the depth of an operand is its height, and within the limit.
- `Waiting.Forms`, `ComesToForm`: the node of an operator, and the nodes of all operators that are completed.
- `Assembly.Demands`, `Assembly.Builds`: what the tokens that are left complete, and the nodes that they build.
- `Assembly.step_exact`, `Assembly.finish_exact`: a fault of depth shows that a node too high is built, and otherwise the
  operands fit again; `Reaches.fits`: so they do in every state.
- `Assembly.Builds.run_eq_error`: where a node too high is built the assembly fails.
- `ofTokens_eq_tooDeep_iff`: **a fault of depth** is that of a node that is built and too high.
-/
import ComplexFormula.Proofs.Grammar.Balance

namespace ComplexFormula

open Grammar

/-! ## Operands -/

/-- the depth that the operand carries is the height of its tree, and within the limit -/
def Operand.Fits (a : Operand) : Prop := a.depth = a.expr.height ∧ a.depth ≤ depthLimit

/-- so it is for all of them -/
def Fit (os : List Operand) : Prop := ∀ a ∈ os, a.Fits

theorem Operand.Fits.eq_operand {a : Operand} (h : a.Fits) : a = a.expr.operand := by
  cases a
  exact congrArg _ h.1

theorem Expr.operand_fits {e : Expr} (h : e.height ≤ depthLimit) : e.operand.Fits := ⟨rfl, h⟩

theorem fit_nil : Fit [] := List.forall_mem_nil _

theorem fit_cons_iff {a : Operand} {os : List Operand} : Fit (a :: os) ↔ a.Fits ∧ Fit os := List.forall_mem_cons

theorem Fit.map_operand {os : List Operand} (h : Fit os) : (os.map Operand.expr).map Expr.operand = os := by
  induction os with
  | nil => rfl
  | cons a os ih =>
    obtain ⟨ha, hos⟩ := fit_cons_iff.1 h
    rw [List.map_cons, List.map_cons, ih hos, ← ha.eq_operand]

/-! ## Waiting operators -/

/-- the operator forms the node e of the operands on top, and the others are left -/
inductive Waiting.Forms : Waiting → List Operand → Expr → List Operand → Prop where
  | neg {a os} : Forms .neg (a :: os) (.unary "neg" a.expr) os
  | binary {op a b os} : Forms (.binary op) (b :: a :: os) (.binary op.name a.expr b.expr) os

/-- completing operators from the top, all of which yield, leads from some stacks to others, and no node on the way is
too high -/
inductive Completes (yields : Waiting → Bool) : List Waiting → List Operand → List Waiting → List Operand → Prop where
  | refl {ws os} : Completes yields ws os ws os
  | head {w ws ws' os os' os'' e} (hy : yields w = true) (hw : w.Forms os e os') (hheight : e.height ≤ depthLimit)
      (h : Completes yields ws (e.operand :: os') ws' os'') : Completes yields (w :: ws) os ws' os''

/-- completing the operators that yield comes to the node e -/
def ComesToForm (yields : Waiting → Bool) (ws : List Waiting) (os : List Operand) (e : Expr) : Prop :=
  ∃ w ws' os' os'', Completes yields ws os (w :: ws') os' ∧ yields w = true ∧ w.Forms os' e os''

/-- a fault of depth is reported at the byte and shows that a node is built that is too high -/
def Fault.IsExact (builds : Expr → Prop) (pos : Nat) : Fault → Prop
  | .grammar .tooDeep p => p = pos ∧ ∃ e, builds e ∧ depthLimit < e.height
  | _ => True

/-- the run ends in a result of that kind, and in a fault of depth only at a node too high -/
abbrev EndsExactly {α : Type} (builds : Expr → Prop) (pos : Nat) (r : α → Prop) (x : Except Fault α) : Prop :=
  EndsIn (Fault.IsExact builds pos) r x

section

variable {yields : Waiting → Bool} {pos : Nat} {ws ws' : List Waiting} {os os' : List Operand} {w : Waiting} {e : Expr}
  {builds builds' : Expr → Prop}

theorem Fault.IsExact.imp {fault : Fault} (h : fault.IsExact builds pos) (hbuilds : ∀ e, builds e → builds' e) :
    fault.IsExact builds' pos := by
  unfold Fault.IsExact at h ⊢
  split
  case h_1 =>
    obtain ⟨hpos, e, he, hheight⟩ := h
    exact ⟨hpos, e, hbuilds e he, hheight⟩
  case h_2 => trivial

theorem EndsExactly.imp {α : Type} {r : α → Prop} {x : Except Fault α} (h : EndsExactly builds pos r x)
    (hbuilds : ∀ e, builds e → builds' e) : EndsExactly builds' pos r x :=
  EndsIn.imp h (fun _ hfault => hfault.imp hbuilds) fun _ => id

/-- a node is pushed, or else it is the one that is too high -/
theorem pushNode_exact (he : builds e) (hos : Fit os) (pos : Nat) :
    EndsExactly builds pos Fit (pushNode e e.height pos os) := by
  rw [pushNode_operand]
  by_cases hheight : e.height ≤ depthLimit
  · rw [if_pos hheight]
    exact .ok (fit_cons_iff.2 ⟨Expr.operand_fits hheight, hos⟩)
  · rw [if_neg hheight]
    exact .error ⟨rfl, e, he, Nat.lt_of_not_le hheight⟩

namespace Waiting

theorem Forms.fit (h : w.Forms os e os') (hos : Fit os) : Fit os' := by
  cases h with
  | neg => exact (fit_cons_iff.1 hos).2
  | binary => exact (fit_cons_iff.1 (fit_cons_iff.1 hos).2).2

/-- operands that fit make a node that is at most one level too high -/
theorem Forms.height_le (h : w.Forms os e os') (hos : Fit os) : e.height ≤ depthLimit + 1 := by
  cases h with
  | neg =>
    obtain ⟨⟨hheight, hlimit⟩, -⟩ := fit_cons_iff.1 hos
    rw [Expr.height]
    omega
  | binary =>
    obtain ⟨⟨hright, hrightLimit⟩, hos⟩ := fit_cons_iff.1 hos
    obtain ⟨⟨hleft, hleftLimit⟩, -⟩ := fit_cons_iff.1 hos
    rw [Expr.height]
    omega

theorem Forms.reduce_eq (h : w.Forms os e os') (hos : Fit os) (pos : Nat) :
    reduce pos os w = pushNode e e.height pos os' := by
  cases h with
  | neg =>
    have ha := (fit_cons_iff.1 hos).1.eq_operand
    rw [reduce, ha, pushUnary_operand]
    rfl
  | binary =>
    obtain ⟨hright, hrest⟩ := fit_cons_iff.1 hos
    have hleft := (fit_cons_iff.1 hrest).1
    rw [reduce, hright.eq_operand, hleft.eq_operand, pushBinary_operand]
    rfl

/-- an operator forms its node, or else operands are missing or a bracket is still open -/
theorem forms_or_fault (w : Waiting) (os : List Operand) (pos : Nat) : (∃ e os', w.Forms os e os') ∨
    ∃ fault, reduce pos os w = .error fault ∧ ∀ builds, fault.IsExact builds pos := by
  cases w with
  | neg =>
    match os with
    | [] => exact .inr ⟨_, rfl, fun _ => trivial⟩
    | a :: os => exact .inl ⟨_, _, .neg⟩
  | binary op =>
    match os with
    | [] | [_] => exact .inr ⟨_, rfl, fun _ => trivial⟩
    | b :: a :: os => exact .inl ⟨_, _, .binary⟩
  | group | bar | call => exact .inr ⟨_, rfl, fun _ => trivial⟩

end Waiting

theorem Completes.fit (h : Completes yields ws os ws' os') (hos : Fit os) : Fit os' := by
  induction h with
  | refl => exact hos
  | head _ hw hheight _ ih => exact ih (fit_cons_iff.2 ⟨Expr.operand_fits hheight, hw.fit hos⟩)

theorem Completes.reduceWhile_eq (h : Completes yields ws os ws' os') (hos : Fit os) (pos : Nat) :
    reduceWhile yields pos ws os = reduceWhile yields pos ws' os' := by
  induction h with
  | refl => rfl
  | head hy hw hheight _ ih =>
    simp only [reduceWhile, hy, if_true, hw.reduce_eq hos, pushNode_operand, hheight]
    exact ih (fit_cons_iff.2 ⟨Expr.operand_fits hheight, hw.fit hos⟩)

theorem ComesToForm.height_le (h : ComesToForm yields ws os e) (hos : Fit os) : e.height ≤ depthLimit + 1 := by
  obtain ⟨w, ws', os', os'', hc, -, hw⟩ := h
  exact hw.height_le (hc.fit hos)

/-- **Completing operators** stops at the first one that does not yield, or for its depth at a node too high. -/
theorem reduceWhile_exact (hos : Fit os) (yields : Waiting → Bool) (pos : Nat) (ws : List Waiting) :
    EndsExactly (ComesToForm yields ws os) pos
      (fun p => Completes yields ws os p.1 p.2 ∧ ∀ w ∈ p.1.head?, yields w = false) (reduceWhile yields pos ws os) := by
  induction ws generalizing os with
  | nil => exact .ok ⟨.refl, by simp⟩
  | cons w ws ih =>
    rw [reduceWhile]
    split
    case isFalse hy => exact .ok ⟨.refl, by simpa using hy⟩
    case isTrue hy =>
      obtain ⟨e, os', hw⟩ | ⟨fault, hfault, hexact⟩ := w.forms_or_fault os pos
      · rw [hw.reduce_eq hos, pushNode_operand]
        by_cases hheight : e.height ≤ depthLimit
        · rw [if_pos hheight]
          have hrest := ih (fit_cons_iff.2 ⟨Expr.operand_fits hheight, hw.fit hos⟩)
          refine EndsIn.imp hrest (fun fault hfault => hfault.imp ?_) ?_
          · rintro e' ⟨w', ws', os'', os''', hc, hw'⟩
            exact ⟨w', ws', os'', os''', .head hy hw hheight hc, hw'⟩
          · exact fun p hp => ⟨.head hy hw hheight hp.1, hp.2⟩
        · rw [if_neg hheight]
          exact .error ⟨rfl, e, ⟨w, ws, os, os', .refl, hy, hw⟩, Nat.lt_of_not_le hheight⟩
      · rw [hfault]
        exact .error (hexact _)

/-- where a node too high is formed, completing operators fails -/
theorem ComesToForm.reduceWhile_eq_error (h : ComesToForm yields ws os e) (hos : Fit os)
    (hheight : depthLimit < e.height) (pos : Nat) :
    reduceWhile yields pos ws os = .error (.grammar .tooDeep pos) := by
  obtain ⟨w, ws', os', os'', hc, hy, hw⟩ := h
  simp only [hc.reduceWhile_eq hos, reduceWhile, hy, if_true, hw.reduce_eq (hc.fit hos), pushNode_operand,
    if_neg (Nat.not_le_of_lt hheight)]

/-- completing down to a bracket that is reached stops there -/
theorem Completes.reduceToBracket_eq (h : Completes (fun w => !w.isBracket) ws os (w :: ws') os')
    (hw : w.isBracket = true) (hos : Fit os) (pos : Nat) : reduceToBracket pos ws os = .ok (w :: ws', os') := by
  rw [reduceToBracket, h.reduceWhile_eq hos]
  exact reduceWhile_stop (by simp [hw])

/-- the innermost bracket stays the same on the way to it -/
theorem Completes.insideBars_eq (h : Completes (fun w => !w.isBracket) ws os ws' os') (last : Last) :
    Assembly.insideBars ⟨os, ws, last⟩ = Assembly.insideBars ⟨os', ws', last⟩ := by
  induction h with
  | refl => rfl
  | head hy _ _ _ ih => exact (Assembly.insideBars_cons (by simpa using hy)).trans ih

/-- a call of operands that fit -/
theorem pushCall_of_fit {as : List Operand} (has : Fit as) (name : String) (pos : Nat) (os : List Operand) :
    pushCall name as.length pos (as.reverse ++ os) =
      pushNode (.call name (as.map Operand.expr)) (Expr.call name (as.map Operand.expr)).height pos os := by
  have hcall := pushCall_operand name (as.map Operand.expr) pos os
  rwa [has.map_operand, List.length_map] at hcall

end

/-! ## Tokens -/

namespace Assembly

/-- behind a value, the tokens that are left have the operators completed that yield: all those that a factor sign
completes if a value begins, those that bind no less tightly than an operator, and down to the bracket if one is closed
or an argument ends; at the end of the tokens, everything -/
inductive Demands (s : Assembly) : List Token → (Waiting → Bool) → Prop where
  | factor {t ts} (hs : s.last = .value ∨ s.last = .identifier ∧ t.kind = .leftParen) (ht : beginsValue t.kind = true)
      (hbar : t.kind = .bar → s.insideBars = false) : Demands s (t :: ts) (Waiting.yieldsTo .mul)
  | operator {t ts op} (hs : s.last.isValue = true) (hk : t.kind = .operator ∨ t.kind = .keyword ∧ t.text = "mod")
      (hop : BinaryOp.ofText? t.text = some op) : Demands s (t :: ts) (Waiting.yieldsTo op)
  | closing {t ts} (hs : s.last.isValue = true)
      (hk : t.kind = .rightParen ∨ t.kind = .comma ∨ t.kind = .bar ∧ s.insideBars = true) :
    Demands s (t :: ts) fun w => !w.isBracket
  | finish (hs : s.last.isValue = true) : Demands s [] fun _ => true

/-- reading the first of the tokens that are left, or their end, builds the node -/
inductive Builds (s : Assembly) : List Token → Expr → Prop where
  /-- an operator that waits is completed -/
  | waiting {ts yields e} (hdemands : s.Demands ts yields) (he : ComesToForm yields s.waiting s.operands e) :
    Builds s ts e
  | factorial {t ts a os} (hs : s.last.isValue = true) (ht : IsOperator t "!") (hos : s.operands = a :: os) :
    Builds s (t :: ts) (.unary "fac" a.expr)
  /-- the call on top takes as many arguments as it has commas, and one more -/
  | call {t ts name opened commas ws os} {as : List Operand} (hs : s.last.isValue = true) (hk : t.kind = .rightParen)
      (hc : Completes (fun w => !w.isBracket) s.waiting s.operands (.call name opened commas :: ws) (as.reverse ++ os))
      (has : as.length = commas + 1) : Builds s (t :: ts) (.call name (as.map Operand.expr))
  | modulus {t ts opened ws a os} (hs : s.last.isValue = true) (hk : t.kind = .bar)
      (hc : Completes (fun w => !w.isBracket) s.waiting s.operands (.bar opened :: ws) (a :: os)) :
    Builds s (t :: ts) (.unary "abs" a.expr)

/-- the byte where the tokens that are left begin, or where they end if there are none -/
def place (stop : Nat) : List Token → Nat
  | [] => stop
  | t :: _ => t.start

/-- the operands of the state fit -/
abbrev Fits (s : Assembly) : Prop := Fit s.operands

section

variable {params : List Param} {s s' : Assembly} {t : Token} {ts us : List Token} {e : Expr} {pos stop : Nat}

/-- operands that fit make no node that is more than one level too high -/
theorem Builds.height_le (h : s.Builds ts e) (hs : s.Fits) : e.height ≤ depthLimit + 1 := by
  cases h with
  | waiting _ he => exact he.height_le hs
  | @factorial t ts a os _ _ hos =>
    rw [Fits, hos] at hs
    obtain ⟨⟨hheight, hlimit⟩, -⟩ := fit_cons_iff.1 hs
    rw [Expr.height]
    omega
  | @call t ts name opened commas ws os as _ _ hc _ =>
    have has := hc.fit hs
    refine Nat.succ_le_succ (Expr.heightAll_le_iff.2 ?_)
    intro b hb
    obtain ⟨a, ha, rfl⟩ := List.mem_map.1 hb
    obtain ⟨hheight, hlimit⟩ := has a (List.mem_append_left os (List.mem_reverse.2 ha))
    rwa [← hheight]
  | modulus _ _ hc =>
    obtain ⟨⟨hheight, hlimit⟩, -⟩ := fit_cons_iff.1 (hc.fit hs)
    rw [Expr.height]
    omega

theorem Demands.isValue {yields : Waiting → Bool} (h : s.Demands ts yields) : s.last.isValue = true := by
  cases h with
  | factor hs => rcases hs with hs | ⟨hs, -⟩ <;> rw [hs] <;> rfl
  | operator hs | closing hs | finish hs => exact hs

/-! ### No other fault of depth -/

theorem binary_exact (hs : s.Fits) (op : BinaryOp) (pos : Nat) :
    EndsExactly (ComesToForm (Waiting.yieldsTo op) s.waiting s.operands) pos Fits (s.binary op pos) := by
  refine (reduceWhile_exact hs _ pos s.waiting).bind ?_
  intro p hp
  exact .ok (hp.1.fit hs)

/-- a value that begins -/
theorem beginValue_exact (hs : s.Fits) (ht : beginsValue t.kind = true)
    (hbar : s.last.isValue = true → t.kind = .bar → s.insideBars = false) :
    EndsExactly (s.Builds (t :: ts)) t.start Fits (s.beginValue t) := by
  have hfactor (hlast : s.last = .value ∨ s.last = .identifier ∧ t.kind = .leftParen) :
      EndsExactly (s.Builds (t :: ts)) t.start Fits (s.binary .mul t.start) := by
    refine (binary_exact hs .mul t.start).imp fun e he => .waiting (.factor hlast ht (hbar ?_)) he
    rcases hlast with hlast | ⟨hlast, -⟩ <;> rw [hlast] <;> rfl
  unfold beginValue
  split
  case h_1 hlast => exact hfactor (.inl hlast)
  case h_2 hlast =>
    split
    case isTrue hk => exact hfactor (.inr ⟨hlast, hk⟩)
    case isFalse => exact .error trivial
  case h_3 | h_4 => exact .ok hs

theorem fits_leaf (hs : s.Fits) (he : e.height = 1) (last : Last) : (s.leaf e last).Fits :=
  fit_cons_iff.2 ⟨⟨he.symm, show 1 ≤ depthLimit by decide⟩, hs⟩

theorem number_exact (hs : s.Fits) (hk : t.kind = .number) :
    EndsExactly (s.Builds (t :: ts)) t.start Fits (s.number t) := by
  refine (beginValue_exact hs (by rw [hk]; rfl) (by simp [hk])).bind ?_
  intro s' hs'
  cases Decimal.read? t.text with
  | none => exact .error trivial
  | some x => exact .ok (fits_leaf hs' rfl .value)

theorem factorial_exact (hs : s.Fits) (ht : IsOperator t "!") :
    EndsExactly (s.Builds (t :: ts)) t.start Fits (s.factorial t.start) := by
  unfold factorial
  split
  case isFalse => exact .error trivial
  case isTrue hlast =>
    have hpush : EndsExactly (s.Builds (t :: ts)) t.start Fit (pushUnary "fac" t.start s.operands) := by
      cases hos : s.operands with
      | nil => exact .error trivial
      | cons a os =>
        rw [Fits, hos] at hs
        obtain ⟨ha, hrest⟩ := fit_cons_iff.1 hs
        rw [ha.eq_operand, pushUnary_operand]
        exact pushNode_exact (.factorial hlast ht hos) hrest t.start
    exact hpush.bind fun _ hos => .ok hos

theorem operator_exact (hs : s.Fits) (hk : t.kind = .operator ∨ t.kind = .keyword ∧ t.text = "mod") :
    EndsExactly (s.Builds (t :: ts)) t.start Fits (s.operator t) := by
  unfold operator
  split
  case isTrue htext =>
    refine factorial_exact hs ⟨hk.elim id ?_, htext⟩
    intro hmod
    simp [htext] at hmod
  case isFalse =>
    split
    case isTrue hlast =>
      split
      case h_1 op hop => exact (binary_exact hs op t.start).imp fun e he => .waiting (.operator hlast hk hop) he
      case h_2 => exact .error trivial
    case isFalse =>
      unfold sign
      split
      · exact .ok hs
      · exact .ok hs
      · exact .error trivial

/-- down to the bracket that is closed, or whose argument ends -/
theorem reduceToBracket_exact (hs : s.Fits) (hlast : s.last.isValue = true)
    (hk : t.kind = .rightParen ∨ t.kind = .comma ∨ t.kind = .bar ∧ s.insideBars = true) :
    EndsExactly (s.Builds (t :: ts)) t.start
      (fun p => Completes (fun w => !w.isBracket) s.waiting s.operands p.1 p.2)
      (reduceToBracket t.start s.waiting s.operands) :=
  EndsIn.imp (reduceWhile_exact hs _ t.start s.waiting)
    (fun _ hfault => hfault.imp fun _ he => .waiting (.closing hlast hk) he) fun _ hp => hp.1

theorem closeEmptyCall_fits (hs : s.Fits) : s.closeEmptyCall.Fits := by
  unfold closeEmptyCall
  split
  · exact fit_cons_iff.2 ⟨⟨rfl, show 1 ≤ depthLimit by decide⟩, hs⟩
  · exact hs

/-- the call on top takes its arguments off -/
theorem pushCall_exact {name : String} {opened commas : Nat} {ws : List Waiting} {os : List Operand} (hs : s.Fits)
    (hlast : s.last.isValue = true) (hk : t.kind = .rightParen)
    (hc : Completes (fun w => !w.isBracket) s.waiting s.operands (.call name opened commas :: ws) os) :
    EndsExactly (s.Builds (t :: ts)) t.start Fit (pushCall name (commas + 1) t.start os) := by
  by_cases hlength : commas + 1 ≤ os.length
  · obtain ⟨as, rest, rfl, has⟩ : ∃ as rest, os = as.reverse ++ rest ∧ as.length = commas + 1 :=
      ⟨(os.take (commas + 1)).reverse, os.drop (commas + 1), by simp, by simp [hlength]⟩
    obtain ⟨hargs, hrest⟩ := List.forall_mem_append.1 (hc.fit hs)
    rw [← has, pushCall_of_fit fun a ha => hargs a (List.mem_reverse.2 ha)]
    exact pushNode_exact (.call hlast hk hc has) hrest t.start
  · have hnone := (Stack.popMany?_eq_none_iff (commas + 1) os).2 (Nat.lt_of_not_le hlength)
    rw [pushCall, hnone]
    exact .error trivial

theorem closeParen_exact (hs : s.Fits) (hk : t.kind = .rightParen) :
    EndsExactly (s.Builds (t :: ts)) t.start Fits (s.closeParen t.start) := by
  unfold closeParen
  split
  case isTrue => exact .ok (closeEmptyCall_fits hs)
  case isFalse =>
    split
    case isFalse => exact .error trivial
    case isTrue hlast =>
      refine (reduceToBracket_exact hs hlast (.inl hk)).bind ?_
      intro ⟨ws, os⟩ hc
      dsimp only at hc ⊢
      split
      case h_1 => exact .ok (hc.fit hs)
      case h_2 => exact (pushCall_exact hs hlast hk hc).bind fun _ hos => .ok hos
      case h_3 => exact .error trivial

theorem closeBar_exact (hs : s.Fits) (hlast : s.last.isValue = true) (hinside : s.insideBars = true)
    (hk : t.kind = .bar) : EndsExactly (s.Builds (t :: ts)) t.start Fits (s.closeBar t.start) := by
  obtain ⟨⟨ws, os⟩, hreduce, hc⟩ | ⟨fault, hfault, hexact⟩ :=
    (@reduceToBracket_exact s t ts hs hlast (.inr (.inr ⟨hk, hinside⟩))).exists_ok_or_error
  · obtain ⟨opened, rest, rfl⟩ := exists_bar_of_reduceToBracket hinside hreduce
    have hpush : EndsExactly (s.Builds (t :: ts)) t.start Fit (pushUnary "abs" t.start os) := by
      cases os with
      | nil => exact .error trivial
      | cons a os =>
        obtain ⟨ha, hrest⟩ := fit_cons_iff.1 (hc.fit hs)
        rw [ha.eq_operand, pushUnary_operand]
        exact pushNode_exact (.modulus hlast hk hc) hrest t.start
    rw [closeBar, hreduce, ok_bind]
    exact hpush.bind fun _ hos => .ok hos
  · rw [closeBar, hfault, error_bind]
    exact .error hexact

theorem bar_exact (hs : s.Fits) (hk : t.kind = .bar) :
    EndsExactly (s.Builds (t :: ts)) t.start Fits (s.bar t) := by
  unfold bar
  split
  case isTrue hclose =>
    rw [Bool.and_eq_true] at hclose
    exact closeBar_exact hs hclose.1 hclose.2 hk
  case isFalse hopen =>
    refine (beginValue_exact hs (by rw [hk]; rfl) fun hlast _ => ?_).bind fun _ hs' => .ok hs'
    simpa [hlast] using hopen

theorem comma_exact (hs : s.Fits) (hk : t.kind = .comma) :
    EndsExactly (s.Builds (t :: ts)) t.start Fits (s.comma t.start) := by
  unfold comma
  split
  case isFalse => exact .error trivial
  case isTrue hlast =>
    refine (reduceToBracket_exact hs hlast (.inr (.inl hk))).bind ?_
    intro ⟨ws, os⟩ hc
    dsimp only at hc ⊢
    split
    · exact .ok (hc.fit hs)
    · exact .error trivial

/-- **Every token** leaves operands that fit, and a fault of depth shows that it builds a node too high. -/
theorem step_exact (hs : s.Fits) (params : List Param) (t : Token) (ts : List Token) :
    EndsExactly (s.Builds (t :: ts)) t.start Fits (s.step params t) := by
  unfold step
  split
  case h_1 hk => exact number_exact hs hk
  case h_2 hk =>
    exact (beginValue_exact hs (by rw [hk]; rfl) (by simp [hk])).bind fun _ hs' => .ok (fits_leaf hs' (named_height _) _)
  case h_3 hk => exact (beginValue_exact hs (by rw [hk]; rfl) (by simp [hk])).bind fun _ hs' => .ok (fits_leaf hs' rfl _)
  case h_4 hk => exact (beginValue_exact hs (by rw [hk]; rfl) (by simp [hk])).bind fun _ hs' => .ok hs'
  case h_5 hk => exact closeParen_exact hs hk
  case h_6 hk => exact comma_exact hs hk
  case h_7 hk => exact bar_exact hs hk
  case h_8 hk => exact operator_exact hs (.inl hk)
  case h_9 hk =>
    split
    case isTrue hm => exact operator_exact hs (.inr ⟨hk, hm⟩)
    case isFalse => exact .error trivial
  case h_10 => exact .error trivial

/-- the end of the tokens -/
theorem finish_exact (hs : s.Fits) (stop : Nat) : EndsExactly (s.Builds []) stop Whatever (s.finish stop) := by
  unfold finish
  split
  case isFalse => exact .error trivial
  case isTrue hlast =>
    refine ((reduceWhile_exact hs _ stop s.waiting).imp fun e he => .waiting (.finish hlast) he).bind ?_
    intro ⟨ws, os⟩ _
    dsimp only
    split
    · exact .ok trivial
    · exact .error trivial
    · exact .error trivial

/-! ### Every node that is too high -/

theorem beginValue_eq_error (hs : s.Fits) (hlast : s.last = .value ∨ s.last = .identifier ∧ t.kind = .leftParen)
    (he : ComesToForm (Waiting.yieldsTo .mul) s.waiting s.operands e) (hheight : depthLimit < e.height) :
    s.beginValue t = .error (.grammar .tooDeep t.start) := by
  have hbinary : s.binary .mul t.start = .error (.grammar .tooDeep t.start) := by
    rw [binary, he.reduceWhile_eq_error hs hheight, error_bind]
  rcases hlast with hlast | ⟨hlast, hk⟩
  · rw [beginValue, hlast]
    exact hbinary
  · rw [beginValue, hlast]
    exact (if_pos hk).trans hbinary

/-- a run fails where a value begins and cannot -/
theorem run_of_beginValue {fault : Fault} (ht : beginsValue t.kind = true)
    (hbar : t.kind = .bar → s.insideBars = false) (h : s.beginValue t = .error fault) :
    s.run params stop (t :: ts) = .error fault := by
  by_cases hf : t.kind = .function
  · rw [run.eq_def]
    simp only [hf, if_true, h]
  · have hstep : s.step params t = .error fault := by
      cases hk : t.kind <;> simp_all [step, number, bar, beginsValue]
    rw [run_of_ne_function hf, hstep]

theorem run_of_step {fault : Fault} (ht : t.kind ≠ .function) (h : s.step params t = .error fault) :
    s.run params stop (t :: ts) = .error fault := by
  rw [run_of_ne_function ht, h]

/-- a closing bracket, a comma or a closing bar fails where the reduction to the bracket does -/
theorem step_of_reduceToBracket {fault : Fault} (hlast : s.last.isValue = true)
    (hk : t.kind = .rightParen ∨ t.kind = .comma ∨ t.kind = .bar ∧ s.insideBars = true)
    (h : reduceToBracket t.start s.waiting s.operands = .error fault) : s.step params t = .error fault := by
  have hne : s.last ≠ .callOpen := by
    intro hopen
    simp [hopen, Last.isValue] at hlast
  rcases hk with hk | hk | ⟨hk, hinside⟩
  · simp only [step, hk, closeParen, if_neg hne, hlast, if_true, h, error_bind]
  · simp only [step, hk, comma, hlast, if_true, h, error_bind]
  · simp only [step, hk, bar, hlast, hinside, Bool.and_self, if_true, closeBar, h, error_bind]

/-- **Where a node too high is built** the run over the tokens that are left fails for its depth. -/
theorem Builds.run_eq_error (h : s.Builds ts e) (hs : s.Fits) (hheight : depthLimit < e.height) (params : List Param)
    (stop : Nat) : s.run params stop ts = .error (.grammar .tooDeep (place stop ts)) := by
  have hpush (pos : Nat) (os : List Operand) : pushNode e e.height pos os = .error (.grammar .tooDeep pos) := by
    rw [pushNode_operand, if_neg (Nat.not_le_of_lt hheight)]
  cases h with
  | waiting hdemands he =>
    have hreduce := he.reduceWhile_eq_error hs hheight
    cases hdemands with
    | factor hlast ht hbar => exact run_of_beginValue ht hbar (beginValue_eq_error hs hlast he hheight)
    | operator hlast hk hop =>
      refine run_of_step (by rcases hk with hk | ⟨hk, -⟩ <;> simp [hk]) ?_
      rw [step_binary hlast hk hop, binary, hreduce, error_bind]
      rfl
    | closing hlast hk =>
      refine run_of_step (by rcases hk with hk | hk | ⟨hk, -⟩ <;> simp [hk]) ?_
      exact step_of_reduceToBracket hlast hk (hreduce _)
    | finish hlast =>
      rw [run.eq_def]
      simp only [finish, hlast, if_true, hreduce, error_bind]
      rfl
  | @factorial t ts a os hlast ht hos =>
    refine run_of_step (by simp [ht.1]) ?_
    have hfits := hs
    rw [Fits, hos] at hfits
    obtain ⟨ha, -⟩ := fit_cons_iff.1 hfits
    have hunary : pushUnary "fac" t.start s.operands = .error (.grammar .tooDeep t.start) := by
      rw [hos, ha.eq_operand, pushUnary_operand]
      exact hpush t.start os
    simp only [step, ht.1, operator, ht.2, if_true, Assembly.factorial, hlast, hunary, error_bind]
    rfl
  | @call t ts name opened commas ws os as hlast hk hc has =>
    refine run_of_step (by simp [hk]) ?_
    have hne : s.last ≠ .callOpen := by
      intro hopen
      simp [hopen, Last.isValue] at hlast
    have hargs : Fit as := fun a ha => hc.fit hs a (List.mem_append_left os (List.mem_reverse.2 ha))
    have hcall : pushCall name (commas + 1) t.start (as.reverse ++ os) = .error (.grammar .tooDeep t.start) := by
      rw [← has, pushCall_of_fit hargs]
      exact hpush t.start os
    simp only [step, hk, closeParen, if_neg hne, hlast, if_true, hc.reduceToBracket_eq rfl hs, ok_bind, hcall, error_bind]
    rfl
  | @modulus t ts opened ws a os hlast hk hc =>
    refine run_of_step (by simp [hk]) ?_
    obtain ⟨ha, -⟩ := fit_cons_iff.1 (hc.fit hs)
    have hinside : s.insideBars = true := (hc.insideBars_eq s.last).trans (insideBars_bracket rfl)
    have hunary : pushUnary "abs" t.start (a :: os) = .error (.grammar .tooDeep t.start) := by
      rw [ha.eq_operand, pushUnary_operand]
      exact hpush t.start os
    simp only [step, hk, bar, hlast, hinside, Bool.and_self, if_true, closeBar, hc.reduceToBracket_eq rfl hs, ok_bind,
      hunary, error_bind]
    rfl

/-! ### Runs -/

theorem Takes.fits (hmove : Takes params s us s') (hs : s.Fits) : s'.Fits := by
  cases hmove with
  | token _ hstep => exact (@step_exact s hs params _ []).of_eq_ok hstep
  | @call f o s' hf _ hbegin =>
    have hbegins := @beginValue_exact s f [] hs (by rw [hf]; rfl) (by simp [hf])
    have hs' : s'.Fits := hbegins.of_eq_ok hbegin
    exact hs'

/-- **The operands of every state fit:** each carries the height of its tree, and none is higher than the limit. -/
theorem Reaches.fits (h : Reaches params .start ts s) : s.Fits := by
  induction h with
  | refl => exact fit_nil
  | tail _ hmove ih => exact hmove.fits ih

/-- the run over the tokens that are left fails for its depth only where it comes to build a node too high -/
theorem Reaches.run_exact {rest : List Token} (h : Reaches params .start ts s)
    (hrun : s.run params stop rest = .error (.grammar .tooDeep pos)) :
    ∃ read left s' e, read ++ left = ts ++ rest ∧ Reaches params .start read s' ∧ s'.Builds left e ∧
      depthLimit < e.height ∧ pos = place stop left := by
  fun_induction run params stop s rest generalizing ts with
  | case1 s =>
    obtain ⟨rfl, e, he, hheight⟩ := (finish_exact h.fits stop).of_eq_error hrun
    exact ⟨ts, [], s, e, rfl, h, he, hheight, rfl⟩
  | case2 s f rest hf fault hfault =>
    obtain rfl := Except.error.inj hrun
    have hbegin := @beginValue_exact s f rest h.fits (by rw [hf]; rfl) (by simp [hf])
    obtain ⟨rfl, e, he, hheight⟩ := hbegin.of_eq_error hfault
    exact ⟨ts, _, s, e, rfl, h, he, hheight, rfl⟩
  | case3 | case5 => cases hrun
  | case4 s f hf s' o rest hbegin ho ih =>
    obtain ⟨read, left, s', e, hsplit, hfound⟩ := ih (h.tail (.call hf ho hbegin)) hrun
    exact ⟨read, left, s', e, by rw [hsplit, List.append_assoc]; rfl, hfound⟩
  | case6 s t rest ht fault hfault =>
    obtain rfl := Except.error.inj hrun
    obtain ⟨rfl, e, he, hheight⟩ := (step_exact h.fits params t rest).of_eq_error hfault
    exact ⟨ts, _, s, e, rfl, h, he, hheight, rfl⟩
  | case7 s t rest ht s' hstep ih =>
    obtain ⟨read, left, s', e, hsplit, hfound⟩ := ih (h.tail (.token ht hstep)) hrun
    exact ⟨read, left, s', e, by rw [hsplit, List.append_assoc]; rfl, hfound⟩

end

end Assembly

/-- **A fault of depth** is exactly that of a node that the assembly comes to build and that is one level too high. -/
theorem ofTokens_eq_tooDeep_iff {params : List Param} {stop pos : Nat} {tokens : List Token} :
    Expr.ofTokens params stop tokens = .error (.grammar .tooDeep pos) ↔
      ∃ read left s e, read ++ left = tokens ∧ Assembly.Reaches params .start read s ∧ s.Builds left e ∧
        e.height = depthLimit + 1 ∧ pos = Assembly.place stop left := by
  constructor
  · intro h
    obtain ⟨read, left, s, e, hsplit, hreaches, he, hheight, hpos⟩ := Assembly.Reaches.refl.run_exact h
    exact ⟨read, left, s, e, hsplit, hreaches, he, Nat.le_antisymm (he.height_le hreaches.fits) hheight, hpos⟩
  · rintro ⟨read, left, s, e, rfl, hreaches, he, hheight, rfl⟩
    rw [Expr.ofTokens, hreaches.run_eq]
    exact he.run_eq_error hreaches.fits (by omega) params stop

end ComplexFormula

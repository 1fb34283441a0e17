/-
Where the faults of an expression are reported. Every position is one that some token begins or ends at, or the
beginning of the source: positions come from the token at hand, from the end of the tokens, and from the brackets that
wait, each of which remembers the token that opened it. The one fault of another stage, a literal that denotes no
number, points at a token of that literal.

- `Place`, `Fault.PointsInto`: positions and faults that belong to the tokens.
- `Assembly.OpenedIn`: every open bracket was opened by one of the tokens.
- `Assembly.step_endsIn`, `Assembly.run_endsIn`: one token, and all tokens that are left.
- `ofTokens_endsIn`: **faults point into the tokens**.
-/
import ComplexFormula.Expr.Assembly
import ComplexFormula.Proofs.Outcome

namespace ComplexFormula

/-! ## Places -/

/-- the beginning of the source, or a byte where a token begins or ends -/
def Place (tokens : List Token) (pos : Nat) : Prop := pos = 0 ∨ ∃ t ∈ tokens, pos = t.start ∨ pos = t.stop

theorem Place.start {tokens : List Token} {t : Token} (ht : t ∈ tokens) : Place tokens t.start :=
  .inr ⟨t, ht, .inl rfl⟩

theorem Place.stop {tokens : List Token} {t : Token} (ht : t ∈ tokens) : Place tokens t.stop :=
  .inr ⟨t, ht, .inr rfl⟩

/-- the fault is one of grammar at a place of the tokens, or a token of a literal that denotes no number -/
def Fault.PointsInto (tokens : List Token) : Fault → Prop
  | .grammar _ pos => Place tokens pos
  | .invalidNumber text pos =>
    ∃ t ∈ tokens, t.kind = .number ∧ t.text = text ∧ t.start = pos ∧ Decimal.read? text = none
  | _ => False

/-- the bracket was opened by one of the tokens -/
def Waiting.OpenedIn (tokens : List Token) : Waiting → Prop
  | .neg | .binary _ => True
  | .group pos | .bar pos | .call _ pos _ => Place tokens pos

/-- so was every bracket that waits -/
def OpenedIn (tokens : List Token) (ws : List Waiting) : Prop := ∀ w ∈ ws, w.OpenedIn tokens

variable {tokens ts : List Token} {pos stop : Nat} {operands : List Operand}

/-- the run ends in a result of that kind or in a fault that belongs to the tokens -/
abbrev EndsInto {α : Type} (tokens : List Token) (r : α → Prop) (x : Except Fault α) : Prop :=
  EndsIn (Fault.PointsInto tokens) r x

/-! ## Operands -/

theorem pushNode_endsIn (hpos : Place tokens pos) (e : Expr) (depth : Nat) (operands : List Operand) :
    EndsInto tokens Whatever (pushNode e depth pos operands) := by
  unfold pushNode
  split
  · exact .error hpos
  · exact .ok trivial

theorem pushUnary_endsIn (hpos : Place tokens pos) (op : String) (operands : List Operand) :
    EndsInto tokens Whatever (pushUnary op pos operands) := by
  cases operands with
  | nil => exact .error hpos
  | cons a rest => exact pushNode_endsIn hpos _ _ rest

theorem pushBinary_endsIn (hpos : Place tokens pos) (op : String) (operands : List Operand) :
    EndsInto tokens Whatever (pushBinary op pos operands) := by
  match operands with
  | [] => exact .error hpos
  | [_] => exact .error hpos
  | b :: a :: rest => exact pushNode_endsIn hpos _ _ rest

theorem pushCall_endsIn (hpos : Place tokens pos) (name : String) (argc : Nat) (operands : List Operand) :
    EndsInto tokens Whatever (pushCall name argc pos operands) := by
  unfold pushCall
  cases Stack.popMany? argc operands with
  | none => exact .error hpos
  | some popped => exact pushNode_endsIn hpos _ _ popped.2

/-! ## Reductions -/

/-- an open bracket that is to be completed is reported where it was opened -/
theorem reduce_endsIn (hpos : Place tokens pos) {w : Waiting} (hw : w.OpenedIn tokens) (operands : List Operand) :
    EndsInto tokens Whatever (reduce pos operands w) := by
  cases w with
  | neg => exact pushUnary_endsIn hpos "neg" operands
  | binary op => exact pushBinary_endsIn hpos op.name operands
  | group | bar | call => exact .error hw

/-- what still waits was opened by the tokens -/
theorem reduceWhile_endsIn (hpos : Place tokens pos) (yields : Waiting → Bool) {ws : List Waiting}
    (hws : OpenedIn tokens ws) (operands : List Operand) :
    EndsInto tokens (fun p => OpenedIn tokens p.1) (reduceWhile yields pos ws operands) := by
  induction ws generalizing operands with
  | nil => exact .ok hws
  | cons w ws ih =>
    obtain ⟨hw, hrest⟩ := List.forall_mem_cons.1 hws
    rw [reduceWhile]
    split
    case isFalse => exact .ok hws
    case isTrue =>
      obtain ⟨os, hos, -⟩ | ⟨fault, hfault, h⟩ := (reduce_endsIn hpos hw operands).exists_ok_or_error
      · rw [hos]
        exact ih hrest os
      · rw [hfault]
        exact .error h

theorem reduceToBracket_endsIn (hpos : Place tokens pos) {ws : List Waiting} (hws : OpenedIn tokens ws)
    (operands : List Operand) : EndsInto tokens (fun p => OpenedIn tokens p.1) (reduceToBracket pos ws operands) :=
  reduceWhile_endsIn hpos _ hws operands

/-! ## The assembly -/

/-- every bracket that waits was opened by one of the tokens -/
def Assembly.OpenedIn (tokens : List Token) (s : Assembly) : Prop := ComplexFormula.OpenedIn tokens s.waiting

namespace Assembly

variable {s : Assembly} {t : Token} {params : List Param}

theorem OpenedIn.opened (hs : s.OpenedIn tokens) (w : Waiting) (hw : w.OpenedIn tokens) (last : Last) :
    (s.opened w last).OpenedIn tokens := List.forall_mem_cons.2 ⟨hw, hs⟩

theorem binary_endsIn (hs : s.OpenedIn tokens) (op : BinaryOp) (hpos : Place tokens pos) :
    EndsInto tokens (OpenedIn tokens) (s.binary op pos) := by
  refine (reduceWhile_endsIn hpos _ hs s.operands).bind ?_
  intro p hp
  exact .ok (List.forall_mem_cons.2 ⟨trivial, hp⟩)

theorem beginValue_endsIn (hs : s.OpenedIn tokens) (ht : t ∈ tokens) :
    EndsInto tokens (OpenedIn tokens) (s.beginValue t) := by
  unfold beginValue
  split
  · exact binary_endsIn hs .mul (.start ht)
  · split
    · exact binary_endsIn hs .mul (.start ht)
    · exact .error (.start ht)
  · exact .ok hs
  · exact .ok hs

theorem factorial_endsIn (hs : s.OpenedIn tokens) (hpos : Place tokens pos) :
    EndsInto tokens (OpenedIn tokens) (s.factorial pos) := by
  unfold factorial
  split
  · exact (pushUnary_endsIn hpos "fac" s.operands).bind fun _ _ => .ok hs
  · exact .error hpos

theorem sign_endsIn (hs : s.OpenedIn tokens) (ht : t ∈ tokens) : EndsInto tokens (OpenedIn tokens) (s.sign t) := by
  unfold sign
  split
  · exact .ok (hs.opened .neg trivial .operator)
  · exact .ok hs
  · exact .error (.start ht)

theorem operator_endsIn (hs : s.OpenedIn tokens) (ht : t ∈ tokens) :
    EndsInto tokens (OpenedIn tokens) (s.operator t) := by
  unfold operator
  split
  · exact factorial_endsIn hs (.start ht)
  · split
    · split
      · exact binary_endsIn hs _ (.start ht)
      · exact .error (.start ht)
    · exact sign_endsIn hs ht

theorem OpenedIn.closeEmptyCall (hs : s.OpenedIn tokens) : s.closeEmptyCall.OpenedIn tokens := by
  unfold Assembly.closeEmptyCall
  split
  · rename_i hwaiting
    rw [Assembly.OpenedIn, hwaiting] at hs
    exact (List.forall_mem_cons.1 hs).2
  · exact fun w hw => hs w (List.mem_of_mem_tail hw)

theorem closeParen_endsIn (hs : s.OpenedIn tokens) (hpos : Place tokens pos) :
    EndsInto tokens (OpenedIn tokens) (s.closeParen pos) := by
  unfold closeParen
  split
  · exact .ok hs.closeEmptyCall
  · split
    · refine (reduceToBracket_endsIn hpos hs s.operands).bind ?_
      intro ⟨ws, os⟩ hws
      cases ws with
      | nil => exact .error hpos
      | cons w ws =>
        obtain ⟨-, hrest⟩ := List.forall_mem_cons.1 hws
        cases w with
        | neg | binary | bar => exact .error hpos
        | group => exact .ok hrest
        | call name _ commas => exact (pushCall_endsIn hpos name (commas + 1) os).bind fun _ _ => .ok hrest
    · exact .error hpos

theorem closeBar_endsIn (hs : s.OpenedIn tokens) (hpos : Place tokens pos) :
    EndsInto tokens (OpenedIn tokens) (s.closeBar pos) := by
  refine (reduceToBracket_endsIn hpos hs s.operands).bind ?_
  intro p hp
  refine (pushUnary_endsIn hpos "abs" p.2).bind ?_
  intro os _
  exact .ok fun w hw => hp w (List.mem_of_mem_tail hw)

theorem bar_endsIn (hs : s.OpenedIn tokens) (ht : t ∈ tokens) : EndsInto tokens (OpenedIn tokens) (s.bar t) := by
  unfold bar
  split
  · exact closeBar_endsIn hs (.start ht)
  · exact (beginValue_endsIn hs ht).bind fun _ h => .ok (h.opened (.bar _) (.start ht) .operator)

theorem comma_endsIn (hs : s.OpenedIn tokens) (hpos : Place tokens pos) :
    EndsInto tokens (OpenedIn tokens) (s.comma pos) := by
  unfold comma
  split
  · refine (reduceToBracket_endsIn hpos hs s.operands).bind ?_
    intro ⟨ws, os⟩ hws
    cases ws with
    | nil => exact .error hpos
    | cons w ws =>
      obtain ⟨hw, hrest⟩ := List.forall_mem_cons.1 hws
      cases w with
      | neg | binary | group | bar => exact .error hpos
      | call name opened commas => exact .ok (List.forall_mem_cons.2 ⟨hw, hrest⟩)
  · exact .error hpos

theorem number_endsIn (hs : s.OpenedIn tokens) (ht : t ∈ tokens) (hkind : t.kind = .number) :
    EndsInto tokens (OpenedIn tokens) (s.number t) := by
  refine (beginValue_endsIn hs ht).bind ?_
  intro next h
  cases hread : Decimal.read? t.text with
  | none => exact .error ⟨t, ht, hkind, rfl, rfl, hread⟩
  | some x => exact .ok h

/-- **One token** is reported at its own place, or an open bracket at its. -/
theorem step_endsIn (hs : s.OpenedIn tokens) (ht : t ∈ tokens) :
    EndsInto tokens (OpenedIn tokens) (s.step params t) := by
  unfold step
  split
  · exact number_endsIn hs ht ‹_›
  · exact (beginValue_endsIn hs ht).bind fun _ h => .ok h
  · exact (beginValue_endsIn hs ht).bind fun _ h => .ok h
  · exact (beginValue_endsIn hs ht).bind fun _ h => .ok (h.opened (.group _) (.start ht) _)
  · exact closeParen_endsIn hs (.start ht)
  · exact comma_endsIn hs (.start ht)
  · exact bar_endsIn hs ht
  · exact operator_endsIn hs ht
  · split
    · exact operator_endsIn hs ht
    · exact .error (.start ht)
  · exact .error (.start ht)

theorem finish_endsIn (hs : s.OpenedIn tokens) (hstop : Place tokens stop) :
    EndsInto tokens Whatever (s.finish stop) := by
  unfold finish
  split
  · refine (reduceWhile_endsIn hstop _ hs s.operands).bind ?_
    intro ⟨ws, os⟩ _
    match os with
    | [] => exact .error hstop
    | [a] => exact .ok trivial
    | _ :: _ :: _ => exact .error hstop
  · exact .error hstop

/-- **A whole run** over some of the tokens; the name of a function takes two of them at once. -/
theorem run_endsIn {s : Assembly} {ts : List Token} (hs : s.OpenedIn tokens) (hts : ts ⊆ tokens)
    (hstop : Place tokens stop) : EndsInto tokens Whatever (s.run params stop ts) := by
  match ts with
  | [] => exact finish_endsIn hs hstop
  | t :: ts =>
    obtain ⟨ht, hts⟩ := List.cons_subset.1 hts
    unfold run
    split
    case isTrue =>
      obtain ⟨next, hnext, hopened⟩ | ⟨fault, hfault, h⟩ := (beginValue_endsIn hs ht).exists_ok_or_error
      · rw [hnext]
        match ts with
        | [] => exact .error hstop
        | u :: rest =>
          obtain ⟨hu, hrest⟩ := List.cons_subset.1 hts
          simp only
          split
          case isTrue => exact run_endsIn (hopened.opened (.call _ _ _) (.start ht) .callOpen) hrest hstop
          case isFalse => exact .error (.start hu)
      · rw [hfault]
        exact .error h
    case isFalse =>
      obtain ⟨next, hnext, hopened⟩ | ⟨fault, hfault, h⟩ := (step_endsIn hs ht).exists_ok_or_error
      · rw [hnext]
        exact run_endsIn hopened hts hstop
      · rw [hfault]
        exact .error h

end Assembly

/-- **Faults point into the tokens** that an expression is read from, or to the place that is given as their end. -/
theorem ofTokens_endsIn (params : List Param) (hts : ts ⊆ tokens) (hstop : Place tokens stop) :
    EndsInto tokens Whatever (Expr.ofTokens params stop ts) :=
  Assembly.run_endsIn (List.forall_mem_nil _) hts hstop

end ComplexFormula

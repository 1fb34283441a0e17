/-
Places of tokens. Where a token stands counts for nothing but the place of a fault: tokens of the same kinds and texts
are assembled into the same expression, or fail for the same cause. Two runs of the assembly on such tokens go through
states that differ in the places of their open brackets alone.

- `Fault.SameCause`, `Token.SameLexeme`, `SameLexemes`: the same up to places.
- `Waiting.Same`, `Assembly.Same`: states that differ in places alone.
- `Assembly.step_alike`, `Assembly.run_alike`: one token, and all tokens that are left.
- `ofTokens_alike`: **expressions do not depend on places**.
-/
import ComplexFormula.Expr.Assembly
import ComplexFormula.Proofs.Outcome
import ComplexFormula.Proofs.Scanning.Spelling

namespace ComplexFormula

/-! ## Places -/

/-- the fault as it would be reported at the beginning of the source -/
def Fault.unplaced : Fault → Fault
  | .unexpectedCharacter char _ => .unexpectedCharacter char 0
  | .invalidNumber text _ => .invalidNumber text 0
  | .grammar cause _ => .grammar cause 0
  | fault => fault

/-- the faults differ in their places at most -/
def Fault.SameCause (f f' : Fault) : Prop := f.unplaced = f'.unplaced

/-- the tokens differ in their places at most -/
def Token.SameLexeme (t t' : Token) : Prop := t.lexeme = t'.lexeme

theorem Token.SameLexeme.kind_eq {t t' : Token} (h : t.SameLexeme t') : t.kind = t'.kind := congrArg Lexeme.kind h

theorem Token.SameLexeme.text_eq {t t' : Token} (h : t.SameLexeme t') : t.text = t'.text := congrArg Lexeme.text h

/-- so do the tokens of the lists, one by one -/
abbrev SameLexemes (ts ts' : List Token) : Prop := List.Forall₂ Token.SameLexeme ts ts'

theorem sameLexemes_iff {ts ts' : List Token} :
    SameLexemes ts ts' ↔ ts.map Token.lexeme = ts'.map Token.lexeme := by
  rw [← List.forall₂_eq_eq_eq, List.forall₂_map_left_iff, List.forall₂_map_right_iff]
  rfl

/-- both wait for the same, perhaps opened at different places -/
inductive Waiting.Same : Waiting → Waiting → Prop where
  | neg : Same .neg .neg
  | binary (op : BinaryOp) : Same (.binary op) (.binary op)
  | group (pos pos' : Nat) : Same (.group pos) (.group pos')
  | bar (pos pos' : Nat) : Same (.bar pos) (.bar pos')
  | call (name : String) (pos pos' commas : Nat) : Same (.call name pos commas) (.call name pos' commas)

/-! ## Operands -/

open Fault (SameCause)

section

variable (pos pos' : Nat) (operands : List Operand)

theorem pushNode_alike (e : Expr) (depth : Nat) :
    Alike SameCause Eq (pushNode e depth pos operands) (pushNode e depth pos' operands) := by
  unfold pushNode
  split
  · exact .error rfl
  · exact .ok rfl

theorem pushUnary_alike (op : String) :
    Alike SameCause Eq (pushUnary op pos operands) (pushUnary op pos' operands) := by
  cases operands with
  | nil => exact .error rfl
  | cons a rest => exact pushNode_alike pos pos' rest _ _

theorem pushBinary_alike (op : String) :
    Alike SameCause Eq (pushBinary op pos operands) (pushBinary op pos' operands) := by
  match operands with
  | [] => exact .error rfl
  | [_] => exact .error rfl
  | b :: a :: rest => exact pushNode_alike pos pos' rest _ _

theorem pushCall_alike (name : String) (argc : Nat) :
    Alike SameCause Eq (pushCall name argc pos operands) (pushCall name argc pos' operands) := by
  unfold pushCall
  cases Stack.popMany? argc operands with
  | none => exact .error rfl
  | some popped => exact pushNode_alike pos pos' popped.2 _ _

/-! ## Reductions -/

variable {w w' : Waiting} {ws ws' : List Waiting}

theorem reduce_alike (hw : w.Same w') : Alike SameCause Eq (reduce pos operands w) (reduce pos' operands w') := by
  cases hw with
  | neg => exact pushUnary_alike pos pos' operands "neg"
  | binary op => exact pushBinary_alike pos pos' operands op.name
  | group | bar | call => exact .error rfl

/-- what waits, with the operands, up to places -/
def SameStacks (p p' : List Waiting × List Operand) : Prop := List.Forall₂ Waiting.Same p.1 p'.1 ∧ p.2 = p'.2

variable {operands} in
theorem reduceWhile_alike {yields : Waiting → Bool} (hyields : ∀ w w', Waiting.Same w w' → yields w = yields w')
    (hws : List.Forall₂ Waiting.Same ws ws') :
    Alike SameCause SameStacks (reduceWhile yields pos ws operands) (reduceWhile yields pos' ws' operands) := by
  induction hws generalizing operands with
  | nil => exact .ok ⟨.nil, rfl⟩
  | @cons w w' ws ws' hw hws ih =>
    rw [reduceWhile, reduceWhile, hyields w w' hw]
    split
    case isFalse => exact .ok ⟨.cons hw hws, rfl⟩
    case isTrue =>
      obtain ⟨os, os', hos, hos', rfl⟩ | ⟨fault, fault', hfault, hfault', h⟩ :=
        (reduce_alike pos pos' operands hw).exists_ok_or_error
      · rw [hos, hos']
        exact ih
      · rw [hfault, hfault']
        exact .error h

theorem Waiting.Same.isBracket_eq (hw : w.Same w') : w.isBracket = w'.isBracket := by
  cases hw <;> rfl

theorem Waiting.Same.isBar_eq (hw : w.Same w') : w.isBar = w'.isBar := by
  cases hw <;> rfl

theorem Waiting.Same.yieldsTo_eq (hw : w.Same w') (op : BinaryOp) : w.yieldsTo op = w'.yieldsTo op := by
  cases hw <;> rfl

variable {operands} in
theorem reduceToBracket_alike (hws : List.Forall₂ Waiting.Same ws ws') :
    Alike SameCause SameStacks (reduceToBracket pos ws operands) (reduceToBracket pos' ws' operands) :=
  reduceWhile_alike pos pos' (fun w w' hw => by rw [hw.isBracket_eq]) hws

end

/-! ## The assembly -/

/-- the states differ in the places of open brackets at most -/
structure Assembly.Same (s s' : Assembly) : Prop where
  operands : s.operands = s'.operands
  waiting : List.Forall₂ Waiting.Same s.waiting s'.waiting
  last : s.last = s'.last

namespace Assembly

variable {s s' : Assembly} {t t' : Token} {params : List Param}

theorem Same.leaf (hs : s.Same s') (e : Expr) (last : Last) : (s.leaf e last).Same (s'.leaf e last) :=
  ⟨congrArg (List.cons _) hs.operands, hs.waiting, rfl⟩

theorem Same.opened (hs : s.Same s') {w w' : Waiting} (hw : w.Same w') (last : Last) :
    (s.opened w last).Same (s'.opened w' last) := ⟨hs.operands, .cons hw hs.waiting, rfl⟩

theorem binary_alike (hs : s.Same s') (op : BinaryOp) (pos pos' : Nat) :
    Alike SameCause Same (s.binary op pos) (s'.binary op pos') := by
  obtain ⟨hoperands, hwaiting, -⟩ := hs
  rw [binary, binary, hoperands]
  refine (reduceWhile_alike pos pos' (fun w w' hw => hw.yieldsTo_eq op) hwaiting).bind ?_
  intro p p' hp
  exact .ok ⟨hp.2, .cons (.binary op) hp.1, rfl⟩

theorem beginValue_alike (hs : s.Same s') (ht : t.SameLexeme t') :
    Alike SameCause Same (s.beginValue t) (s'.beginValue t') := by
  rw [beginValue, beginValue, hs.last, ht.kind_eq, ht.text_eq]
  split
  · exact binary_alike hs .mul _ _
  · split
    · exact binary_alike hs .mul _ _
    · exact .error rfl
  · exact .ok hs
  · exact .ok hs

theorem factorial_alike (hs : s.Same s') (pos pos' : Nat) :
    Alike SameCause Same (s.factorial pos) (s'.factorial pos') := by
  rw [factorial, factorial, hs.last, hs.operands]
  split
  · refine (pushUnary_alike pos pos' s'.operands "fac").bind ?_
    rintro operands _ rfl
    exact .ok ⟨rfl, hs.waiting, rfl⟩
  · exact .error rfl

theorem sign_alike (hs : s.Same s') (ht : t.SameLexeme t') : Alike SameCause Same (s.sign t) (s'.sign t') := by
  rw [sign, sign, ht.text_eq]
  split
  · exact .ok (hs.opened .neg .operator)
  · exact .ok ⟨hs.operands, hs.waiting, rfl⟩
  · exact .error rfl

theorem operator_alike (hs : s.Same s') (ht : t.SameLexeme t') :
    Alike SameCause Same (s.operator t) (s'.operator t') := by
  rw [operator, operator, hs.last, ht.text_eq]
  split
  · exact factorial_alike hs _ _
  · split
    · split
      · exact binary_alike hs _ _ _
      · exact .error rfl
    · exact sign_alike hs ht

theorem closeEmptyCall_same (hs : s.Same s') : s.closeEmptyCall.Same s'.closeEmptyCall := by
  obtain ⟨operands, waiting, last⟩ := s
  obtain ⟨operands', waiting', last'⟩ := s'
  obtain ⟨rfl, hwaiting, rfl⟩ := hs
  cases hwaiting with
  | nil => exact ⟨rfl, .nil, rfl⟩
  | cons hw hws => cases hw <;> exact ⟨rfl, hws, rfl⟩

/-- the bracket on top is closed; what is done depends on its kind and on nothing else of it -/
theorem closeParen_alike (hs : s.Same s') (pos pos' : Nat) :
    Alike SameCause Same (s.closeParen pos) (s'.closeParen pos') := by
  rw [closeParen, closeParen, hs.last, hs.operands]
  split
  · exact .ok (closeEmptyCall_same hs)
  · split
    · refine (reduceToBracket_alike pos pos' hs.waiting).bind ?_
      rintro ⟨ws, os⟩ ⟨ws', os'⟩ ⟨hws, rfl⟩
      cases hws with
      | nil => exact .error rfl
      | cons hw hws =>
        cases hw with
        | neg | binary | bar => exact .error rfl
        | group => exact .ok ⟨rfl, hws, rfl⟩
        | call name _ _ commas =>
          refine (pushCall_alike pos pos' os name (commas + 1)).bind ?_
          rintro operands _ rfl
          exact .ok ⟨rfl, hws, rfl⟩
    · exact .error rfl

theorem insideBars_eq (hs : s.Same s') : s.insideBars = s'.insideBars := by
  have hfind : ∀ ws ws', List.Forall₂ Waiting.Same ws ws' →
      (ws.find? Waiting.isBracket).any Waiting.isBar = (ws'.find? Waiting.isBracket).any Waiting.isBar := by
    intro ws ws' hws
    induction hws with
    | nil => rfl
    | cons hw _ ih =>
      rw [List.find?_cons, List.find?_cons, hw.isBracket_eq]
      split
      · exact hw.isBar_eq
      · exact ih
  exact hfind _ _ hs.waiting

theorem closeBar_alike (hs : s.Same s') (pos pos' : Nat) :
    Alike SameCause Same (s.closeBar pos) (s'.closeBar pos') := by
  rw [closeBar, closeBar, hs.operands]
  refine (reduceToBracket_alike pos pos' hs.waiting).bind ?_
  rintro ⟨ws, os⟩ ⟨ws', os'⟩ ⟨hws, rfl⟩
  refine (pushUnary_alike pos pos' os "abs").bind ?_
  rintro operands _ rfl
  refine .ok ⟨rfl, ?_, rfl⟩
  cases hws with
  | nil => exact .nil
  | cons _ hws => exact hws

theorem bar_alike (hs : s.Same s') (ht : t.SameLexeme t') : Alike SameCause Same (s.bar t) (s'.bar t') := by
  rw [bar, bar, hs.last, insideBars_eq hs]
  split
  · exact closeBar_alike hs _ _
  · exact (beginValue_alike hs ht).bind fun _ _ h => .ok (h.opened (.bar _ _) .operator)

theorem comma_alike (hs : s.Same s') (pos pos' : Nat) : Alike SameCause Same (s.comma pos) (s'.comma pos') := by
  rw [comma, comma, hs.last, hs.operands]
  split
  · refine (reduceToBracket_alike pos pos' hs.waiting).bind ?_
    rintro ⟨ws, os⟩ ⟨ws', os'⟩ ⟨hws, rfl⟩
    cases hws with
    | nil => exact .error rfl
    | cons hw hws =>
      cases hw with
      | neg | binary | group | bar => exact .error rfl
      | call => exact .ok ⟨rfl, .cons (.call _ _ _ _) hws, rfl⟩
  · exact .error rfl

theorem number_alike (hs : s.Same s') (ht : t.SameLexeme t') : Alike SameCause Same (s.number t) (s'.number t') := by
  rw [number, number, ht.text_eq]
  refine (beginValue_alike hs ht).bind ?_
  intro next next' h
  cases Decimal.read? t'.text with
  | none => exact .error rfl
  | some x => exact .ok (h.leaf _ _)

/-- **One token**, wherever it stands. -/
theorem step_alike (hs : s.Same s') (ht : t.SameLexeme t') :
    Alike SameCause Same (s.step params t) (s'.step params t') := by
  rw [step, step, ht.kind_eq, ht.text_eq]
  split
  · exact number_alike hs ht
  · exact (beginValue_alike hs ht).bind fun _ _ h => .ok (h.leaf _ _)
  · exact (beginValue_alike hs ht).bind fun _ _ h => .ok (h.leaf _ _)
  · exact (beginValue_alike hs ht).bind fun _ _ h => .ok (h.opened (.group _ _) _)
  · exact closeParen_alike hs _ _
  · exact comma_alike hs _ _
  · exact bar_alike hs ht
  · exact operator_alike hs ht
  · split
    · exact operator_alike hs ht
    · exact .error rfl
  · exact .error rfl

theorem finish_alike (hs : s.Same s') (stop stop' : Nat) :
    Alike SameCause Eq (s.finish stop) (s'.finish stop') := by
  rw [finish, finish, hs.last, hs.operands]
  split
  · refine (reduceWhile_alike stop stop' (fun _ _ _ => rfl) hs.waiting).bind ?_
    rintro ⟨ws, os⟩ ⟨ws', os'⟩ ⟨-, rfl⟩
    match os with
    | [] => exact .error rfl
    | [a] => exact .ok rfl
    | _ :: _ :: _ => exact .error rfl
  · exact .error rfl

/-- **A whole run** over tokens of the same kinds and texts; the name of a function takes two of them at once. -/
theorem run_alike {s s' : Assembly} {ts ts' : List Token} (hs : s.Same s') (hts : SameLexemes ts ts')
    (stop stop' : Nat) :
    Alike SameCause Eq (s.run params stop ts) (s'.run params stop' ts') := by
  match hts with
  | .nil => exact finish_alike hs stop stop'
  | .cons ht hts =>
    unfold run
    rw [ht.kind_eq]
    split
    case isTrue =>
      obtain ⟨next, next', hnext, hnext', h⟩ | ⟨fault, fault', hfault, hfault', h⟩ :=
        (beginValue_alike hs ht).exists_ok_or_error
      · rw [hnext, hnext', ht.text_eq]
        match hts with
        | .nil => exact .error rfl
        | .cons hopen hrest =>
          simp only [hopen.kind_eq]
          split
          case isTrue => exact run_alike (h.opened (.call _ _ _ 0) .callOpen) hrest stop stop'
          case isFalse => exact .error rfl
      · rw [hfault, hfault']
        exact .error h
    case isFalse =>
      have hstep : Alike SameCause Same (s.step params _) (s'.step params _) := step_alike hs ht
      obtain ⟨next, next', hnext, hnext', h⟩ | ⟨fault, fault', hfault, hfault', h⟩ := hstep.exists_ok_or_error
      · rw [hnext, hnext']
        exact run_alike h hts stop stop'
      · rw [hfault, hfault']
        exact .error h

end Assembly

/-- **Expressions do not depend on places**: tokens of the same kinds and texts form the same expression, or fail for
the same cause. -/
theorem ofTokens_alike {ts ts' : List Token} (hts : SameLexemes ts ts') (params : List Param) (stop stop' : Nat) :
    Alike SameCause Eq (Expr.ofTokens params stop ts) (Expr.ofTokens params stop' ts') :=
  Assembly.run_alike ⟨rfl, .nil, rfl⟩ hts stop stop'

end ComplexFormula

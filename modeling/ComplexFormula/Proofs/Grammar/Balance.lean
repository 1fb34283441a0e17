/-
The stacks of an assembly balance. Above the stacks that were there when a bracket was opened, there is one operand for
each binary operator that waits, one for each comma of an open call, and one more exactly if a value stands last. So no
operator and no call ever lacks an operand, and at the end one operand is left.

- `Waiting.held`, `heldBy`: the operands that wait together with what waits.
- `StandsOn`: what waits on top of an open bracket, or on the ground.
- `Assembly.BalancedOn`: the invariant, above the stacks of a state in which a bracket has just been opened.
- `step_balanced`, `Assembly.Stays.balancedOn`: one token, and all tokens up to the one that closes the bracket.
- `stacks_balance`: **balance** in every state of every run, and what it excludes.
-/
import ComplexFormula.Proofs.Grammar.Course

namespace ComplexFormula

/-! ## Faults -/

/-- operands are missing, or some are left over -/
def GrammarFault.IsImbalance : GrammarFault → Prop
  | .missingOperand _ | .missingArguments _ | .expectedExpression | .expectedOperator => True
  | _ => False

/-- the fault does not come from stacks out of balance -/
def Fault.IsBalanced : Fault → Prop
  | .grammar cause _ => ¬cause.IsImbalance
  | _ => True

/-- the run ends in a result of that kind, and if in a fault, then not for want of balance -/
abbrev EndsBalanced {α : Type} (r : α → Prop) (x : Except Fault α) : Prop := EndsIn Fault.IsBalanced r x

/-! ## What waits with operands -/

namespace Waiting

/-- how many operands wait together with it: the left one of a binary operator, the finished arguments of a call -/
def held : Waiting → Nat
  | .binary _ => 1
  | .call _ _ commas => commas
  | _ => 0

/-- the bracket as it was when it was opened -/
def asOpened : Waiting → Waiting
  | .call name pos _ => .call name pos 0
  | w => w

@[simp] theorem isBracket_asOpened (w : Waiting) : w.asOpened.isBracket = w.isBracket := by cases w <;> rfl

end Waiting

/-- how many operands wait together with all of it -/
def heldBy : List Waiting → Nat
  | [] => 0
  | w :: ws => w.held + heldBy ws

@[simp] theorem heldBy_nil : heldBy [] = 0 := rfl

@[simp] theorem heldBy_cons (w : Waiting) (ws : List Waiting) : heldBy (w :: ws) = w.held + heldBy ws := rfl

/-- one operand for a value that stands last -/
def Last.held (last : Last) : Nat := if last.isValue then 1 else 0

theorem Last.held_of_value {last : Last} (h : last.isValue = true) : last.held = 1 := if_pos h

/-! ## Levels -/

/-- the upper part of what waits stands on an open bracket, which it includes, or on the ground if nothing waits below;
the commas of a call count as its bracket does -/
inductive StandsOn : List Waiting → List Waiting → List Waiting → Prop where
  | ground : StandsOn [] [] []
  | bracket {w ws} (hw : w.isBracket = true) : StandsOn (w.asOpened :: ws) [w] (w :: ws)
  | cons {base upper ws} (w) (h : StandsOn base upper ws) : StandsOn base (w :: upper) (w :: ws)

section

variable {base upper ws : List Waiting} {w : Waiting}

/-- only an open bracket ends the upper part -/
theorem StandsOn.of_cons (h : StandsOn base upper (w :: ws)) :
    (∃ rest, upper = w :: rest ∧ StandsOn base rest ws) ∨
      w.isBracket = true ∧ base = w.asOpened :: ws ∧ upper = [w] := by
  cases h with
  | bracket hw => exact .inr ⟨hw, rfl, rfl⟩
  | cons _ h => exact .inl ⟨_, rfl, h⟩

/-- the bracket of a call takes a comma -/
theorem StandsOn.comma {name : String} {pos commas : Nat} (h : StandsOn base upper (.call name pos commas :: ws)) :
    ∃ rest, upper = .call name pos commas :: rest ∧
      StandsOn base (.call name pos (commas + 1) :: rest) (.call name pos (commas + 1) :: ws) := by
  obtain ⟨rest, hupper, hrest⟩ | ⟨-, hbase, hupper⟩ := h.of_cons
  · exact ⟨rest, hupper, hrest.cons _⟩
  · refine ⟨[], hupper, ?_⟩
    rw [hbase]
    exact .bracket (w := .call name pos (commas + 1)) rfl

end

/-- above the stacks of the base every operand is accounted for: there is one for each that is held, and n more -/
def Accounted (base : Assembly) (ws : List Waiting) (os : List Operand) (n : Nat) : Prop :=
  ∃ upper pushed, StandsOn base.waiting upper ws ∧ os = pushed ++ base.operands ∧ pushed.length = heldBy upper + n

namespace Accounted

variable {base : Assembly} {ws : List Waiting} {os rest : List Operand} {w : Waiting} {n k : Nat}

theorem push (h : Accounted base ws os n) (a : Operand) : Accounted base ws (a :: os) (n + 1) := by
  obtain ⟨upper, pushed, hon, hos, hlength⟩ := h
  refine ⟨upper, a :: pushed, hon, by rw [hos, List.cons_append], ?_⟩
  rw [List.length_cons, hlength, Nat.add_assoc]

/-- the operands that are not held are there, and can be taken off -/
theorem drop (h : Accounted base ws os (n + k)) : k ≤ os.length ∧ Accounted base ws (os.drop k) n := by
  obtain ⟨upper, pushed, hon, hos, hlength⟩ := h
  have hk : k ≤ pushed.length := by omega
  constructor
  · rw [hos, List.length_append]
    omega
  · refine ⟨upper, pushed.drop k, hon, ?_, ?_⟩
    · rw [hos, List.drop_append_of_le_length hk]
    · rw [List.length_drop]
      omega

theorem popOne (h : Accounted base ws os (n + 1)) : ∃ a rest, os = a :: rest ∧ Accounted base ws rest n := by
  obtain ⟨hlength, hrest⟩ := h.drop
  cases os with
  | nil => cases hlength
  | cons a rest => exact ⟨a, rest, rfl, hrest⟩

/-- something waits from now on, with the operands that it holds -/
theorem wait (h : Accounted base ws os (n + w.held)) : Accounted base (w :: ws) os n := by
  obtain ⟨upper, pushed, hon, hos, hlength⟩ := h
  refine ⟨w :: upper, pushed, hon.cons w, hos, ?_⟩
  rw [hlength, heldBy_cons]
  omega

/-- there are operands for what waits on top -/
theorem held_le (h : Accounted base (w :: ws) os n) : n + w.held ≤ os.length := by
  obtain ⟨upper, pushed, hon, hos, hlength⟩ := h
  have hheld : w.held ≤ heldBy upper := by
    obtain ⟨rest, rfl, -⟩ | ⟨-, -, rfl⟩ := hon.of_cons <;> simp
  rw [hos, List.length_append]
  omega

/-- what waits on top is done, unless it is the bracket of the base -/
theorem unwait (h : Accounted base (w :: ws) os n) (hopen : w.isBracket = true → base.waiting ≠ w.asOpened :: ws) :
    Accounted base ws os (n + w.held) := by
  obtain ⟨upper, pushed, hon, hos, hlength⟩ := h
  obtain ⟨rest, rfl, hrest⟩ | ⟨hw, hbase, -⟩ := hon.of_cons
  · refine ⟨rest, pushed, hrest, hos, ?_⟩
    rw [hlength, heldBy_cons]
    omega
  · exact absurd hbase (hopen hw)

/-- so is an operator in any case -/
theorem unwait_operator (h : Accounted base (w :: ws) os n) (hw : w.isBracket = false) :
    Accounted base ws os (n + w.held) :=
  h.unwait fun hb => absurd hb (by simp [hw])

/-- so is a bracket while that of the base is open -/
theorem unwait_bracket (h : Accounted base (w :: ws) os n)
    (hopen : base.openBrackets ≤ ws.countP Waiting.isBracket) : Accounted base ws os (n + w.held) := by
  refine h.unwait fun hw hbase => ?_
  rw [Assembly.openBrackets, hbase, List.countP_cons, Waiting.isBracket_asOpened, if_pos hw] at hopen
  omega

/-- a comma completes an argument -/
theorem comma {name : String} {pos commas : Nat} (h : Accounted base (.call name pos commas :: ws) os (n + 1)) :
    Accounted base (.call name pos (commas + 1) :: ws) os n := by
  obtain ⟨upper, pushed, hon, hos, hlength⟩ := h
  obtain ⟨rest, rfl, hrest⟩ := hon.comma
  refine ⟨_, pushed, hrest, hos, ?_⟩
  simp only [heldBy_cons, Waiting.held] at hlength ⊢
  omega

end Accounted

/-! ## Nodes -/

section

variable {os : List Operand}

theorem pushNode_balanced (e : Expr) (depth pos : Nat) (os : List Operand) :
    EndsBalanced (fun os' => ∃ a, os' = a :: os) (pushNode e depth pos os) := by
  unfold pushNode
  split
  · exact .error not_false
  · exact .ok ⟨_, rfl⟩

theorem popMany?_of_le {n : Nat} (h : n ≤ os.length) :
    Stack.popMany? n os = some ((os.take n).reverse, os.drop n) := by
  have hpop := Stack.popMany?_reverse_append (os.take n).reverse (os.drop n)
  rwa [List.reverse_reverse, List.take_append_drop, List.length_reverse, List.length_take_of_le h] at hpop

/-- a call for which there are enough operands -/
theorem pushCall_balanced (name : String) {argc : Nat} (pos : Nat) (h : argc ≤ os.length) :
    EndsBalanced (fun os' => ∃ a, os' = a :: os.drop argc) (pushCall name argc pos os) := by
  unfold pushCall
  rw [popMany?_of_le h]
  exact pushNode_balanced _ _ pos _

end

/-! ## Reductions -/

section

variable {base : Assembly} {ws : List Waiting} {os : List Operand} {w : Waiting} {pos : Nat}

/-- an operation on the topmost operand -/
theorem pushUnary_balanced {n : Nat} (h : Accounted base ws os (n + 1)) (op : String) (pos : Nat) :
    EndsBalanced (Accounted base ws · (n + 1)) (pushUnary op pos os) := by
  obtain ⟨a, rest, rfl, hrest⟩ := h.popOne
  refine (pushNode_balanced _ _ pos rest).imp (fun _ => id) ?_
  intro os' hos'
  obtain ⟨b, rfl⟩ := hos'
  exact hrest.push b

/-- an operator finds its operands, and its node takes their place -/
theorem reduce_balanced (h : Accounted base (w :: ws) os 1) (pos : Nat) :
    EndsBalanced (Accounted base ws · 1) (reduce pos os w) := by
  cases w with
  | neg => exact pushUnary_balanced (h.unwait_operator rfl) "neg" pos
  | binary op =>
    obtain ⟨b, rest, rfl, hright⟩ := (h.unwait_operator rfl).popOne
    obtain ⟨a, rest, rfl, hleft⟩ := hright.popOne
    refine (pushNode_balanced _ _ pos rest).imp (fun _ => id) ?_
    intro os' hos'
    obtain ⟨c, rfl⟩ := hos'
    exact hleft.push c
  | group | bar | call => exact .error not_false

theorem reduceWhile_balanced (yields : Waiting → Bool) (h : Accounted base ws os 1) (pos : Nat) :
    EndsBalanced (fun p => Accounted base p.1 p.2 1) (reduceWhile yields pos ws os) := by
  induction ws generalizing os with
  | nil => exact .ok h
  | cons w ws ih =>
    rw [reduceWhile]
    split
    case isFalse => exact .ok h
    case isTrue =>
      obtain ⟨os', hos', h'⟩ | ⟨fault, hfault, h'⟩ := (reduce_balanced h pos).exists_ok_or_error
      · rw [hos']
        exact ih h'
      · rw [hfault]
        exact .error h'

theorem reduceToBracket_balanced (h : Accounted base ws os 1) (pos : Nat) :
    EndsBalanced (fun p => Accounted base p.1 p.2 1) (reduceToBracket pos ws os) :=
  reduceWhile_balanced _ h pos

/-- inside of bars the bracket that remains is a bar -/
theorem exists_bar_of_reduceToBracket {last : Last} {os os' : List Operand} {ws ws' : List Waiting}
    (hinside : Assembly.insideBars ⟨os, ws, last⟩ = true) (h : reduceToBracket pos ws os = .ok (ws', os')) :
    ∃ opened rest, ws' = .bar opened :: rest := by
  induction ws generalizing os with
  | nil => simp [Assembly.insideBars] at hinside
  | cons w ws ih =>
    rw [reduceToBracket, reduceWhile] at h
    by_cases hw : w.isBracket = true
    · rw [Assembly.insideBars_bracket hw] at hinside
      simp only [hw, Bool.not_true, Bool.false_eq_true, if_false] at h
      obtain ⟨rfl, -⟩ := Prod.mk.inj (Except.ok.inj h)
      cases w with
      | bar opened => exact ⟨opened, ws, rfl⟩
      | neg | binary | group | call => cases hinside
    · rw [Bool.not_eq_true] at hw
      rw [Assembly.insideBars_cons hw] at hinside
      simp only [hw, Bool.not_false, if_true] at h
      cases hreduce : reduce pos os w with
      | error fault => simp [hreduce] at h
      | ok os'' =>
        rw [hreduce] at h
        have hrest : Assembly.insideBars ⟨os'', ws, last⟩ = true := hinside
        exact ih hrest h

end

/-! ## The assembly -/

namespace Assembly

/-- above the base the operands are accounted for, with one more if a value stands last; and behind the bracket of a
call, that call waits on top without a comma -/
structure BalancedOn (base s : Assembly) : Prop where
  accounted : Accounted base s.waiting s.operands s.last.held
  called : s.last = .callOpen → ∃ name pos ws, s.waiting = .call name pos 0 :: ws

section

variable {base s : Assembly} {t : Token} {params : List Param} {stop : Nat}

theorem BalancedOn.of_value (h : BalancedOn base s) (hs : s.last.isValue = true) :
    Accounted base s.waiting s.operands 1 := by
  rw [← Last.held_of_value hs]
  exact h.accounted

theorem BalancedOn.of_due (h : BalancedOn base s) (hs : s.last.isValue = false) :
    Accounted base s.waiting s.operands 0 := by
  have hheld : s.last.held = 0 := by simp [Last.held, hs]
  rw [← hheld]
  exact h.accounted

/-- a value stands last -/
theorem BalancedOn.value {ws : List Waiting} {os : List Operand} {last : Last} (h : Accounted base ws os 1)
    (hlast : last.isValue = true) : BalancedOn base ⟨os, ws, last⟩ := by
  constructor
  case accounted => rwa [Last.held_of_value hlast]
  case called =>
    intro hcall
    rw [show last = .callOpen from hcall] at hlast
    cases hlast

/-- a value is due -/
theorem BalancedOn.due {ws : List Waiting} {os : List Operand} (h : Accounted base ws os 0) :
    BalancedOn base ⟨os, ws, .operator⟩ :=
  ⟨h, fun hcall => absurd hcall (by simp)⟩

theorem binary_balanced (h : Accounted base s.waiting s.operands 1) (op : BinaryOp) (pos : Nat) :
    EndsBalanced (BalancedOn base) (s.binary op pos) := by
  refine (reduceWhile_balanced _ h pos).bind ?_
  intro p hp
  exact .ok (.due hp.wait)

theorem beginValue_balanced (h : BalancedOn base s) (t : Token) :
    EndsBalanced (fun s' => Accounted base s'.waiting s'.operands 0) (s.beginValue t) := by
  have hbinary (hs : s.last.isValue = true) :
      EndsBalanced (fun s' => Accounted base s'.waiting s'.operands 0) (s.binary .mul t.start) := by
    refine (reduceWhile_balanced _ (h.of_value hs) t.start).bind ?_
    intro p hp
    exact .ok (Accounted.wait (w := .binary .mul) hp)
  unfold beginValue
  split
  case h_1 hs => exact hbinary (by simp [hs, Last.isValue])
  case h_2 hs =>
    split
    · exact hbinary (by simp [hs, Last.isValue])
    · exact .error not_false
  case h_3 hs | h_4 hs => exact .ok (h.of_due (by simp [hs, Last.isValue]))

theorem factorial_balanced (h : BalancedOn base s) (pos : Nat) : EndsBalanced (BalancedOn base) (s.factorial pos) := by
  unfold factorial
  split
  case isTrue hs =>
    refine (pushUnary_balanced (h.of_value hs) "fac" pos).bind ?_
    intro os hos
    exact .ok (.value hos rfl)
  case isFalse => exact .error not_false

theorem sign_balanced (h : BalancedOn base s) (hs : s.last.isValue = false) (t : Token) :
    EndsBalanced (BalancedOn base) (s.sign t) := by
  have hdue := h.of_due hs
  unfold sign
  split
  · exact .ok (.due (Accounted.wait (w := .neg) hdue))
  · exact .ok (.due hdue)
  · exact .error not_false

theorem operator_balanced (h : BalancedOn base s) (t : Token) : EndsBalanced (BalancedOn base) (s.operator t) := by
  unfold operator
  split
  · exact factorial_balanced h t.start
  · split
    case isTrue hs =>
      split
      · exact binary_balanced (h.of_value hs) _ t.start
      · exact .error not_false
    case isFalse hs => exact sign_balanced h (by simpa using hs) t

/-- the invariant, as long as the bracket of the base is open -/
def BalancedWhileOpen (base s : Assembly) : Prop := base.openBrackets ≤ s.openBrackets → BalancedOn base s

/-- the bracket of a call is still on top where it is closed at once -/
theorem closeEmptyCall_balanced (h : BalancedOn base s) (hs : s.last = .callOpen) :
    BalancedWhileOpen base s.closeEmptyCall := by
  obtain ⟨name, pos, ws, hws⟩ := h.called hs
  have hdue := h.of_due (by simp [hs, Last.isValue])
  rw [hws] at hdue
  unfold closeEmptyCall
  rw [hws]
  intro hopen
  exact .value ((hdue.unwait_bracket hopen).push _) rfl

theorem closeParen_balanced (h : BalancedOn base s) (pos : Nat) :
    EndsBalanced (BalancedWhileOpen base) (s.closeParen pos) := by
  unfold closeParen
  split
  case isTrue hs => exact .ok (closeEmptyCall_balanced h hs)
  case isFalse =>
    split
    case isFalse => exact .error not_false
    case isTrue hs =>
      refine (reduceToBracket_balanced (h.of_value hs) pos).bind ?_
      intro ⟨ws, os⟩ hstacks
      cases ws with
      | nil => exact .error not_false
      | cons w ws =>
        cases w with
        | neg | binary | bar => exact .error not_false
        | group => exact .ok fun hopen => .value (hstacks.unwait_bracket hopen) rfl
        | call name opened commas =>
          have hargs : commas + 1 ≤ os.length := by
            rw [Nat.add_comm]
            exact hstacks.held_le
          refine (pushCall_balanced name pos hargs).bind ?_
          intro os' hos'
          obtain ⟨a, rfl⟩ := hos'
          refine .ok fun hopen => .value (Accounted.push ?_ a) rfl
          have hdone : Accounted base ws os (0 + (commas + 1)) := by
            rw [Nat.zero_add, Nat.add_comm]
            exact hstacks.unwait_bracket hopen
          exact hdone.drop.2

theorem closeBar_balanced (h : BalancedOn base s) (hs : s.last.isValue = true) (hinside : s.insideBars = true)
    (pos : Nat) : EndsBalanced (BalancedWhileOpen base) (s.closeBar pos) := by
  obtain ⟨⟨ws, os⟩, hreduce, hstacks⟩ | ⟨fault, hfault, hbalanced⟩ :=
    (reduceToBracket_balanced (h.of_value hs) pos).exists_ok_or_error
  · obtain ⟨opened, rest, rfl⟩ := exists_bar_of_reduceToBracket hinside hreduce
    rw [closeBar, hreduce]
    refine (pushUnary_balanced (n := 0) hstacks "abs" pos).bind ?_
    intro os' hos'
    exact .ok fun hopen => .value (hos'.unwait_bracket hopen) rfl
  · rw [closeBar, hfault]
    exact .error hbalanced

theorem bar_balanced (h : BalancedOn base s) (t : Token) : EndsBalanced (BalancedWhileOpen base) (s.bar t) := by
  unfold bar
  split
  case isTrue hs =>
    rw [Bool.and_eq_true] at hs
    exact closeBar_balanced h hs.1 hs.2 t.start
  case isFalse =>
    refine (beginValue_balanced h t).bind ?_
    intro s' hs'
    exact .ok fun _ => .due (Accounted.wait (w := .bar t.start) hs')

theorem comma_balanced (h : BalancedOn base s) (pos : Nat) : EndsBalanced (BalancedOn base) (s.comma pos) := by
  unfold comma
  split
  case isFalse => exact .error not_false
  case isTrue hs =>
    refine (reduceToBracket_balanced (h.of_value hs) pos).bind ?_
    intro ⟨ws, os⟩ hstacks
    cases ws with
    | nil => exact .error not_false
    | cons w ws =>
      cases w with
      | neg | binary | group | bar => exact .error not_false
      | call name opened commas => exact .ok (.due (Accounted.comma (n := 0) hstacks))

theorem leaf_balanced (h : BalancedOn base s) (t : Token) (e : Expr) {last : Last} (hlast : last.isValue = true) :
    EndsBalanced (BalancedOn base) (s.beginValue t >>= fun s => pure (s.leaf e last)) := by
  refine (beginValue_balanced h t).bind ?_
  intro s' hs'
  exact .ok (.value (hs'.push _) hlast)

theorem number_balanced (h : BalancedOn base s) (t : Token) : EndsBalanced (BalancedOn base) (s.number t) := by
  refine (beginValue_balanced h t).bind ?_
  intro s' hs'
  cases Decimal.read? t.text with
  | none => exact .error trivial
  | some x => exact .ok (.value (hs'.push _) rfl)

/-- **One token** keeps the balance, until it closes the bracket of the base. -/
theorem step_balanced (h : BalancedOn base s) (t : Token) :
    EndsBalanced (BalancedWhileOpen base) (s.step params t) := by
  have hwhile {x : Except Fault Assembly} (hx : EndsBalanced (BalancedOn base) x) :
      EndsBalanced (BalancedWhileOpen base) x := hx.imp (fun _ => id) fun _ hs _ => hs
  unfold step
  split
  · exact hwhile (number_balanced h t)
  · exact hwhile (leaf_balanced h t _ rfl)
  · exact hwhile (leaf_balanced h t _ rfl)
  · refine (beginValue_balanced h t).bind ?_
    intro s' hs'
    exact .ok fun _ => .due (Accounted.wait (w := .group t.start) hs')
  · exact closeParen_balanced h t.start
  · exact hwhile (comma_balanced h t.start)
  · exact bar_balanced h t
  · exact hwhile (operator_balanced h t)
  · split
    · exact hwhile (operator_balanced h t)
    · exact .error not_false
  · exact .error not_false

/-- the name of a function and its bracket -/
theorem call_balanced {s' : Assembly} (h : Accounted base s'.waiting s'.operands 0) (name : String) (pos : Nat) :
    BalancedOn base (s'.opened (.call name pos 0) .callOpen) :=
  ⟨Accounted.wait (w := .call name pos 0) h, fun _ => ⟨name, pos, s'.waiting, rfl⟩⟩

theorem Takes.balancedOn {us : List Token} {s' : Assembly} (hmove : Takes params s us s') (h : BalancedOn base s)
    (hopen : base.openBrackets ≤ s'.openBrackets) : BalancedOn base s' := by
  cases hmove with
  | token _ hstep => exact (step_balanced h _).of_eq_ok hstep hopen
  | call _ _ hbegin => exact call_balanced ((beginValue_balanced h _).of_eq_ok hbegin) _ _

/-- a bracket has just been opened, or nothing has been read yet -/
inductive IsOpening : Assembly → Prop where
  | start : IsOpening .start
  | group {os pos ws} : IsOpening ⟨os, .group pos :: ws, .operator⟩
  | bar {os pos ws} : IsOpening ⟨os, .bar pos :: ws, .operator⟩
  | call {os name pos ws} : IsOpening ⟨os, .call name pos 0 :: ws, .callOpen⟩

theorem IsOpening.balancedOn (h : IsOpening s) : BalancedOn s s := by
  cases h with
  | start => exact .due ⟨[], [], .ground, rfl, rfl⟩
  | @group os pos ws => exact .due ⟨[.group pos], [], .bracket (w := .group pos) rfl, rfl, rfl⟩
  | @bar os pos ws => exact .due ⟨[.bar pos], [], .bracket (w := .bar pos) rfl, rfl, rfl⟩
  | @call os name pos ws =>
    exact ⟨⟨[.call name pos 0], [], .bracket (w := .call name pos 0) rfl, rfl, rfl⟩, fun _ => ⟨name, pos, ws, rfl⟩⟩

/-- **Balance above an open bracket**, until it is closed. -/
theorem Stays.balancedOn (hbase : IsOpening base) (h : Stays params base s) : BalancedOn base s := by
  induction h with
  | refl => exact hbase.balancedOn
  | tail _ hmove hopen ih => exact hmove.balancedOn ih hopen

/-! ## Ends of runs -/

/-- nothing waits once everything has been completed -/
theorem waiting_eq_nil_of_reduceWhile {pos : Nat} {ws ws' : List Waiting} {os os' : List Operand}
    (h : reduceWhile (fun _ => true) pos ws os = .ok (ws', os')) : ws' = [] := by
  induction ws generalizing os with
  | nil => exact (Prod.mk.inj (Except.ok.inj h)).1.symm
  | cons w ws ih =>
    rw [reduceWhile, if_pos rfl] at h
    cases hreduce : reduce pos os w with
    | error fault => simp [hreduce] at h
    | ok os'' =>
      rw [hreduce] at h
      exact ih h

/-- one operand is left -/
theorem finish_balanced (h : BalancedOn .start s) (stop : Nat) : EndsBalanced Whatever (s.finish stop) := by
  unfold finish
  split
  case isFalse => exact .error not_false
  case isTrue hs =>
    obtain ⟨⟨ws, os⟩, hreduce, haccounted⟩ | ⟨fault, hfault, hbalanced⟩ :=
      (reduceWhile_balanced (fun _ => true) (h.of_value hs) stop).exists_ok_or_error
    · obtain rfl := waiting_eq_nil_of_reduceWhile hreduce
      obtain ⟨upper, pushed, hon, rfl, hlength⟩ := haccounted
      cases hon
      obtain ⟨a, rfl⟩ := List.length_eq_one_iff.1 hlength
      rw [hreduce]
      exact .ok trivial
    · rw [hfault]
      exact .error hbalanced

/-- **No run** fails for want of balance. -/
theorem run_balanced (h : BalancedOn .start s) (stop : Nat) (ts : List Token) :
    EndsBalanced Whatever (s.run params stop ts) := by
  fun_induction run params stop s ts with
  | case1 s => exact finish_balanced h stop
  | case2 s f _ _ fault hfault => exact .error ((beginValue_balanced h f).of_eq_error hfault)
  | case3 | case5 => exact .error not_false
  | case4 s f hf s' o rest hbegin ho ih =>
    exact ih (call_balanced ((beginValue_balanced h f).of_eq_ok hbegin) f.text f.start)
  | case6 s t _ _ fault hfault => exact .error ((step_balanced h t).of_eq_error hfault)
  | case7 s t rest _ s' hstep ih => exact ih ((step_balanced h t).of_eq_ok hstep (Nat.zero_le _))

/-! ## Brackets on top -/

/-- a closing bar finds a bar on top, and takes that one off -/
theorem closeBar_on_top {pos : Nat} {ws : List Waiting} {os : List Operand} (hinside : s.insideBars = true)
    (hreduce : reduceToBracket pos s.waiting s.operands = .ok (ws, os)) : ∃ opened rest, ws = .bar opened :: rest ∧
      s.closeBar pos = (pushUnary "abs" pos os).map fun os' => ⟨os', rest, .value⟩ := by
  obtain ⟨opened, rest, rfl⟩ := exists_bar_of_reduceToBracket hinside hreduce
  refine ⟨opened, rest, rfl, ?_⟩
  simp only [closeBar, hreduce, ok_bind]
  cases pushUnary "abs" pos os <;> rfl

/-- the bracket of a call leaves that call on top, and a closing bracket directly behind it closes that call -/
theorem Takes.call_on_top {f o : Token} {s' : Assembly} (hmove : Takes params s [f, o] s') (pos : Nat) :
    s'.last = .callOpen ∧ ∃ ws, s'.waiting = .call f.text f.start 0 :: ws ∧
      s'.closeParen pos = .ok ⟨⟨.call f.text [], 1⟩ :: s'.operands, ws, .value⟩ := by
  cases hmove with
  | call hf ho hbegin => exact ⟨rfl, _, rfl, rfl⟩

/-- only the bracket of a call is remembered as such, and its call waits on top -/
theorem Reaches.call_on_top {tokens : List Token} (h : Reaches params .start tokens s) (hs : s.last = .callOpen) :
    ∃ front f o pos ws, tokens = front ++ [f, o] ∧ f.kind = .function ∧ o.kind = .leftParen ∧
      s.waiting = .call f.text pos 0 :: ws := by
  cases h.reads with
  | due => cases hs
  | @callDue _ _ front ws os f o pos _ _ hf ho => exact ⟨front, f, o, pos, ws, rfl, hf, ho, rfl⟩
  | value =>
    have hvalue := congrArg Last.isValue hs
    rw [isValue_lastOf] at hvalue
    cases hvalue

end

end Assembly

/-! ## Balance -/

open Assembly in
/-- **Balance.** No expression fails because operands are missing or left over. From the state in which a bracket has
been opened, or the first one, the operands that were there stay, and those above them number one for each binary
operator that waits, one for each comma of a call that is open, and one if a value stands last. A closing bar finds a
bar on top, and a closing bracket directly behind the bracket of a call finds that call. -/
theorem stacks_balance (params : List Param) :
    (∀ stop tokens cause pos, Expr.ofTokens params stop tokens = .error (.grammar cause pos) → ¬cause.IsImbalance) ∧
      (∀ base s, IsOpening base → Stays params base s → BalancedOn base s) ∧
      (∀ tokens s, Reaches params .start tokens s →
        BalancedOn .start s ∧ (∀ stop rest, Expr.ofTokens params stop (tokens ++ rest) = s.run params stop rest) ∧
          (s.last = .callOpen → ∃ front f o pos ws, tokens = front ++ [f, o] ∧ f.kind = .function ∧
            o.kind = .leftParen ∧ s.waiting = .call f.text pos 0 :: ws)) ∧
      (∀ s f o s' pos, Takes params s [f, o] s' → s'.last = .callOpen ∧ ∃ ws,
        s'.waiting = .call f.text f.start 0 :: ws ∧
          s'.closeParen pos = .ok ⟨⟨.call f.text [], 1⟩ :: s'.operands, ws, .value⟩) ∧
      ∀ (s : Assembly) pos ws os, s.insideBars = true → reduceToBracket pos s.waiting s.operands = .ok (ws, os) →
        ∃ opened rest, ws = .bar opened :: rest ∧
          s.closeBar pos = (pushUnary "abs" pos os).map fun os' => ⟨os', rest, .value⟩ := by
  refine ⟨?_, ?_, ?_, ?_, ?_⟩
  · intro stop tokens cause pos hfault
    have hrun : EndsBalanced Whatever (Expr.ofTokens params stop tokens) :=
      run_balanced IsOpening.start.balancedOn stop tokens
    exact hrun.of_eq_error hfault
  · intro base s hbase hstays
    exact hstays.balancedOn hbase
  · intro tokens s hreaches
    exact ⟨hreaches.stays.balancedOn .start, fun stop rest => hreaches.run_eq rest, hreaches.call_on_top⟩
  · intro s f o s' pos hmove
    exact hmove.call_on_top pos
  · intro s pos ws os hinside hreduce
    exact closeBar_on_top hinside hreduce

/-- the tokens of `g(a, |b c`, all names but the first one constants -/
def unclosedTokens : List Token :=
  [⟨.function, "g", 0, 1⟩, ⟨.leftParen, "(", 1, 2⟩, ⟨.constant, "a", 2, 3⟩, ⟨.comma, ",", 3, 4⟩, ⟨.bar, "|", 5, 6⟩,
    ⟨.constant, "b", 6, 7⟩, ⟨.constant, "c", 8, 9⟩]

/-- the state behind them: one argument is finished, and within the bars the left factor of a product -/
def unclosedState : Assembly where
  operands := [⟨.constant "c", 1⟩, ⟨.constant "b", 1⟩, ⟨.constant "a", 1⟩]
  waiting := [.binary .mul, .bar 5, .call "g" 0 1]
  last := .value

open Assembly in
theorem reaches_unclosedState : Reaches [] .start unclosedTokens unclosedState := by
  have hcall := Reaches.tail (@Reaches.refl [] .start)
    (.call (f := ⟨.function, "g", 0, 1⟩) (o := ⟨.leftParen, "(", 1, 2⟩) rfl rfl rfl)
  have hargument := hcall.tail (.token (t := ⟨.constant, "a", 2, 3⟩) (by decide) rfl)
  have hcomma := hargument.tail (.token (t := ⟨.comma, ",", 3, 4⟩) (by decide) rfl)
  have hbar := hcomma.tail (.token (t := ⟨.bar, "|", 5, 6⟩) (by decide) rfl)
  have hleft := hbar.tail (.token (t := ⟨.constant, "b", 6, 7⟩) (by decide) rfl)
  exact hleft.tail (.token (t := ⟨.constant, "c", 8, 9⟩) (by decide) rfl)

/-- three operands: an argument in front of a comma, a left factor, and the value that stands last -/
theorem stacks_balance_unclosed :
    Assembly.Reaches [] .start unclosedTokens unclosedState ∧ Assembly.BalancedOn .start unclosedState ∧
      heldBy unclosedState.waiting + unclosedState.last.held = 3 ∧ unclosedState.insideBars = true ∧
      (∃ opened rest, unclosedState.waiting.tail = .bar opened :: rest) ∧
      ∀ cause pos, Expr.ofTokens [] 9 unclosedTokens = .error (.grammar cause pos) → ¬cause.IsImbalance := by
  obtain ⟨hfaults, -, hreached, -, hbars⟩ := stacks_balance []
  refine ⟨reaches_unclosedState, (hreached _ _ reaches_unclosedState).1, rfl, rfl, ?_, hfaults 9 unclosedTokens⟩
  obtain ⟨opened, rest, hws, -⟩ := hbars unclosedState 9 _ _ rfl rfl
  exact ⟨opened, rest, hws⟩

end ComplexFormula

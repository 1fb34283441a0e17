/-
What waits above an open bracket. While a phrase is read, its operators wait on one stack and their operands on the
other; completing those operators leaves one operand, the tree of the phrase.

- `Settles`: the two upper parts of the stacks come down to one tree.
- `Level.yields`, `Level.IsReady`: which operators a phrase may leave waiting, and what may wait below it.
- `reduceWhile_binary` and its companions: one waiting operator completed, as long as the tree is not too high.
-/
import ComplexFormula.Proofs.Grammar.Phrase
import ComplexFormula.Proofs.Outcome
import ComplexFormula.Proofs.Tree

namespace ComplexFormula

open Grammar

/-! ## Operands -/

/-- a finished expression with its own height -/
def Expr.operand (e : Expr) : Operand := ⟨e, e.height⟩

@[simp] theorem Expr.operand_expr (e : Expr) : e.operand.expr = e := rfl

@[simp] theorem Expr.operand_depth (e : Expr) : e.operand.depth = e.height := rfl

@[simp] theorem map_operand_expr (as : List Expr) : (as.map Expr.operand).map Operand.expr = as := by
  simp [List.map_map, Function.comp_def]

/-- a tree of its own height is pushed unless it is too high -/
theorem pushNode_operand (e : Expr) (pos : Nat) (os : List Operand) :
    pushNode e e.height pos os =
      if e.height ≤ depthLimit then .ok (e.operand :: os) else .error (.grammar .tooDeep pos) := by
  unfold pushNode
  by_cases h : e.height ≤ depthLimit
  · rw [if_neg (Nat.not_lt.2 h), if_pos h]; rfl
  · rw [if_pos (Nat.lt_of_not_le h), if_neg h]

theorem pushUnary_operand (op : String) (a : Expr) (pos : Nat) (os : List Operand) :
    pushUnary op pos (a.operand :: os) = pushNode (.unary op a) (Expr.unary op a).height pos os := by
  rw [Expr.height]; rfl

theorem pushBinary_operand (op : String) (a b : Expr) (pos : Nat) (os : List Operand) :
    pushBinary op pos (b.operand :: a.operand :: os) = pushNode (.binary op a b) (Expr.binary op a b).height pos os := by
  rw [Expr.height]; rfl

theorem pushCall_operand (name : String) (args : List Expr) (pos : Nat) (os : List Operand) :
    pushCall name args.length pos ((args.map Expr.operand).reverse ++ os) =
      pushNode (.call name args) (Expr.call name args).height pos os := by
  have hpop := Stack.popMany?_reverse_append (args.map Expr.operand) os
  rw [List.length_map] at hpop
  have hdepth : (args.map Expr.operand).map Operand.depth = args.map Expr.height := by
    simp [List.map_map, Function.comp_def]
  simp only [pushCall, hpop, map_operand_expr, hdepth, Expr.foldl_max_height, Nat.zero_max, Expr.height]

/-- a call whose last argument is on top -/
theorem pushCall_snoc (name : String) (as : List Expr) (b : Expr) (pos : Nat) (os : List Operand) :
    pushCall name (as.length + 1) pos (b.operand :: ((as.map Expr.operand).reverse ++ os)) =
      pushNode (.call name (as ++ [b])) (Expr.call name (as ++ [b])).height pos os := by
  simpa using pushCall_operand name (as ++ [b]) pos os

/-! ## One waiting operator -/

section

variable {yields : Waiting → Bool} {pos : Nat} {ws : List Waiting} {os : List Operand}

@[simp] theorem reduceWhile_nil : reduceWhile yields pos [] os = .ok ([], os) := rfl

theorem reduceWhile_stop {w : Waiting} (h : yields w = false) :
    reduceWhile yields pos (w :: ws) os = .ok (w :: ws, os) := by
  simp [reduceWhile, h]

/-- nothing on top yields, so nothing is completed -/
theorem reduceWhile_of_head (h : ∀ w ∈ ws.head?, yields w = false) : reduceWhile yields pos ws os = .ok (ws, os) := by
  cases ws with
  | nil => rfl
  | cons w ws => exact reduceWhile_stop (h w rfl)

theorem reduceWhile_neg (h : yields .neg = true) {a : Expr} (ha : (Expr.unary "neg" a).height ≤ depthLimit) :
    reduceWhile yields pos (.neg :: ws) (a.operand :: os) =
      reduceWhile yields pos ws ((Expr.unary "neg" a).operand :: os) := by
  simp only [reduceWhile, h, if_true, reduce, pushUnary_operand, pushNode_operand, ha]

theorem reduceWhile_binary {op : BinaryOp} (h : yields (.binary op) = true) {a b : Expr}
    (hab : (Expr.binary op.name a b).height ≤ depthLimit) :
    reduceWhile yields pos (.binary op :: ws) (b.operand :: a.operand :: os) =
      reduceWhile yields pos ws ((Expr.binary op.name a b).operand :: os) := by
  simp only [reduceWhile, h, if_true, reduce, pushBinary_operand, pushNode_operand, hab]

end

/-! ## Several waiting operators -/

/-- completing the operators `seg` over the operands `ops` leaves the tree e -/
def Settles (seg : List Waiting) (ops : List Operand) (e : Expr) : Prop :=
  ∀ (yields : Waiting → Bool) (pos : Nat) (ws : List Waiting) (os : List Operand), (∀ w ∈ seg, yields w = true) →
    reduceWhile yields pos (seg ++ ws) (ops ++ os) = reduceWhile yields pos ws (e.operand :: os)

theorem Settles.leaf (e : Expr) : Settles [] [e.operand] e := fun _ _ _ _ _ => rfl

theorem Settles.neg {seg : List Waiting} {ops : List Operand} {a : Expr} (h : Settles seg ops a)
    (ha : (Expr.unary "neg" a).height ≤ depthLimit) : Settles (seg ++ [.neg]) ops (.unary "neg" a) := by
  intro yields pos ws os hy
  rw [List.append_assoc, h yields pos _ os fun w hw => hy w (List.mem_append_left _ hw)]
  exact reduceWhile_neg (hy _ (by simp)) ha

theorem Settles.binary {seg : List Waiting} {ops : List Operand} {op : BinaryOp} {a b : Expr} (h : Settles seg ops b)
    (hab : (Expr.binary op.name a b).height ≤ depthLimit) :
    Settles (seg ++ [.binary op]) (ops ++ [a.operand]) (.binary op.name a b) := by
  intro yields pos ws os hy
  rw [List.append_assoc, List.append_assoc, h yields pos _ _ fun w hw => hy w (List.mem_append_left _ hw)]
  exact reduceWhile_binary (hy _ (by simp)) hab

/-! ## Levels -/

namespace Grammar.Level

/-- the operators that a phrase of the level may leave waiting: a sum any, a value none, and the others those that a
product sign completes -/
def yields : Level → Waiting → Bool
  | .sum, w => !w.isBracket
  | .product, w | .signed, w | .power, w => Waiting.yieldsTo .mul w
  | _, _ => false

/-- what may wait below a phrase of the level: an operator that is completed too early must not -/
def IsReady (level : Level) (ws : List Waiting) : Prop :=
  match level with
  | .sum => ∀ w ∈ ws.head?, w.isBracket = true
  | .product => ∀ w ∈ ws.head?, Waiting.yieldsTo .mul w = false
  | _ => True

theorem isBracket_of_yields {level : Level} {w : Waiting} (h : level.yields w = true) : w.isBracket = false := by
  cases level <;> cases w <;> simp_all [yields, Waiting.isBracket, Waiting.yieldsTo]

theorem IsReady.tighter {level tighter : Level} {ws : List Waiting} (h : level.IsReady ws)
    (ht : level.tighter? = some tighter) : tighter.IsReady ws := by
  cases level <;> cases ht <;> try trivial
  intro w hw
  have hb := h w hw
  cases w <;> simp_all [Waiting.isBracket, Waiting.yieldsTo]

theorem yields_of_tighter {level tighter : Level} {w : Waiting} (ht : level.tighter? = some tighter)
    (h : tighter.yields w = true) : level.yields w = true := by
  cases level <;> cases ht <;> try exact h
  · simp [yields, isBracket_of_yields h]
  · exact absurd h (by simp [yields])

end Grammar.Level

namespace BinaryOp

/-- the operator of a sum completes everything down to the bracket -/
theorem yieldsTo_sum {op : BinaryOp} (h : op.precedence = 1) : Waiting.yieldsTo op = Level.sum.yields := by
  funext w
  cases op <;> simp [precedence] at h <;> cases w with
  | binary top => cases top <;> rfl
  | _ => rfl

/-- the operators of products complete the same -/
theorem yieldsTo_product {op : BinaryOp} (h : op.precedence = 2) : Waiting.yieldsTo op = Level.product.yields := by
  funext w
  cases op <;> simp [precedence] at h <;> cases w with
  | binary top => cases top <;> rfl
  | _ => rfl

/-- a power completes nothing -/
theorem yieldsTo_pow (w : Waiting) : Waiting.yieldsTo .pow w = false := by
  cases w with
  | binary top => cases top <;> rfl
  | _ => rfl

end BinaryOp

/-! ## Operators between phrases -/

/-- the operator joins a phrase of the level `left` and one of the level `right` to one of the level `level`: it
completes what the left phrase leaves and nothing below, and the right phrase does not complete it -/
structure Grammar.Joins (op : BinaryOp) (left right level : Level) : Prop where
  completes : ∀ w, left.yields w = true → Waiting.yieldsTo op w = true
  stops : ∀ ws, level.IsReady ws → ∀ w ∈ ws.head?, Waiting.yieldsTo op w = false
  left_ready : ∀ ws, level.IsReady ws → left.IsReady ws
  right_ready : ∀ ws, right.IsReady (.binary op :: ws)
  right_yields : ∀ w, right.yields w = true → level.yields w = true
  yields : level.yields (.binary op) = true

namespace BinaryOp

theorem joins_sum {op : BinaryOp} (h : op.precedence = 1) : Joins op .sum .product .sum where
  completes w hw := by rwa [yieldsTo_sum h]
  stops ws hr w hw := by simp [yieldsTo_sum h, Level.yields, hr w hw]
  left_ready _ hr := hr
  right_ready ws w hw := by
    obtain rfl := Option.some.inj hw
    cases op <;> simp_all [Waiting.yieldsTo, precedence]
  right_yields w hw := by simp [Level.yields, Level.isBracket_of_yields hw]
  yields := rfl

theorem joins_product {op : BinaryOp} (h : op.precedence = 2) : Joins op .product .signed .product where
  completes w hw := by rwa [yieldsTo_product h]
  stops ws hr w hw := by rw [yieldsTo_product h]; exact hr w hw
  left_ready _ hr := hr
  right_ready _ := trivial
  right_yields _ hw := hw
  yields := by rw [← yieldsTo_product h]; cases op <;> simp_all [Waiting.yieldsTo, precedence]

theorem joins_juxtaposed : Joins .mul .product .power .product where
  completes _ hw := hw
  stops _ hr := hr
  left_ready _ hr := hr
  right_ready _ := trivial
  right_yields _ hw := hw
  yields := rfl

theorem joins_pow : Joins .pow .postfixed .signed .power where
  completes _ hw := absurd hw (by simp [Level.yields])
  stops _ _ w _ := yieldsTo_pow w
  left_ready _ _ := trivial
  right_ready _ := trivial
  right_yields _ hw := hw
  yields := rfl

end BinaryOp


namespace Grammar

/-! ## Signs as operators -/

/-- a sum sign is an operator of the loosest precedence -/
theorem SumSign.operator {t : Token} {op : String} (h : SumSign t op) :
    ∃ b : BinaryOp, BinaryOp.ofText? t.text = some b ∧ b.name = op ∧ b.precedence = 1 ∧ t.kind = .operator := by
  obtain ⟨⟨hk, ht⟩, rfl⟩ | ⟨⟨hk, ht⟩, rfl⟩ := h
  · exact ⟨.add, by simp [ht, BinaryOp.ofText?], rfl, rfl, hk⟩
  · exact ⟨.sub, by simp [ht, BinaryOp.ofText?], rfl, rfl, hk⟩

/-- a product sign is an operator of the middle precedence -/
theorem ProductSign.operator {t : Token} {op : String} (h : ProductSign t op) :
    ∃ b : BinaryOp, BinaryOp.ofText? t.text = some b ∧ b.name = op ∧ b.precedence = 2 ∧
      (t.kind = .operator ∨ t.kind = .keyword ∧ t.text = "mod") := by
  obtain ⟨⟨hk, ht⟩, rfl⟩ | ⟨⟨hk, ht⟩, rfl⟩ | ⟨⟨hk, ht⟩ | ⟨hk, ht⟩, rfl⟩ := h
  · exact ⟨.mul, by simp [ht, BinaryOp.ofText?], rfl, rfl, .inl hk⟩
  · exact ⟨.div, by simp [ht, BinaryOp.ofText?], rfl, rfl, .inl hk⟩
  · exact ⟨.mod, by simp [ht, BinaryOp.ofText?], rfl, rfl, .inl hk⟩
  · refine ⟨.mod, by simp [ht, BinaryOp.ofText?], rfl, rfl, ?_⟩
    exact hk.elim (fun hk => .inr ⟨hk, ht⟩) .inl

theorem SumSign.precedence_eq {t : Token} {op : BinaryOp} (h : SumSign t op.name) : op.precedence = 1 := by
  obtain ⟨-, h⟩ | ⟨-, h⟩ := h <;> cases op <;> simp_all [BinaryOp.name, BinaryOp.precedence]

theorem ProductSign.precedence_eq {t : Token} {op : BinaryOp} (h : ProductSign t op.name) : op.precedence = 2 := by
  obtain ⟨-, h⟩ | ⟨-, h⟩ | ⟨-, h⟩ := h <;> cases op <;> simp_all [BinaryOp.name, BinaryOp.precedence]

/-- an operator between operands is the sign of a sum, of a product or of a power -/
theorem signs_of_ofText {t : Token} {op : BinaryOp} (hk : t.kind = .operator ∨ t.kind = .keyword ∧ t.text = "mod")
    (hop : BinaryOp.ofText? t.text = some op) :
    SumSign t op.name ∨ ProductSign t op.name ∨ IsOperator t "^" ∧ op = .pow := by
  unfold BinaryOp.ofText? at hop
  split at hop <;> simp_all [SumSign, ProductSign, IsOperator, IsMod] <;> obtain rfl := hop <;>
    simp [BinaryOp.name, hk.symm]

end Grammar

end ComplexFormula

/-
Expressions as trees: induction over them, their height, and their nodes in order.

- `Expr.induct`: induction with a hypothesis for every argument of a call.
- `Expr.height`: a leaf, or a call without arguments, has height one.
- `Expr.nodes`: every node of the tree, operands in front of the node that they belong to.
- `Declaration.exprs`: the expressions of a definition, clause by clause and then the body.
-/
import ComplexFormula.Declaration.Basic

namespace ComplexFormula

namespace Expr

/-! ## Induction -/

/-- **Induction over expressions.** The arguments of a call come with a hypothesis each. -/
@[elab_as_elim]
theorem induct {motive : Expr → Prop} (number : ∀ x, motive (.number x))
    (param : ∀ name index, motive (.param name index)) (constant : ∀ name, motive (.constant name))
    (unary : ∀ op a, motive a → motive (.unary op a))
    (binary : ∀ op a b, motive a → motive b → motive (.binary op a b))
    (call : ∀ name args, (∀ a ∈ args, motive a) → motive (.call name args)) (e : Expr) : motive e := by
  refine @Expr.rec motive (fun args => ∀ a ∈ args, motive a) number param constant unary binary call ?_ ?_ e
  · intro a ha
    exact absurd ha List.not_mem_nil
  · intro a as ha has b hb
    rcases List.mem_cons.1 hb with rfl | hb
    · exact ha
    · exact has b hb

/-! ## Height -/

mutual

/-- the height of the tree -/
def height : Expr → Nat
  | .unary _ a => a.height + 1
  | .binary _ a b => max a.height b.height + 1
  | .call _ args => heightAll args + 1
  | _ => 1

/-- the height of the tallest of several trees, 0 if there are none -/
def heightAll : List Expr → Nat
  | [] => 0
  | a :: as => max a.height (heightAll as)

end

theorem foldl_max_height (args : List Expr) (n : Nat) :
    (args.map height).foldl max n = max n (heightAll args) := by
  induction args generalizing n with
  | nil => simp [heightAll]
  | cons a as ih => rw [List.map_cons, List.foldl_cons, ih, heightAll, Nat.max_assoc]

theorem heightAll_append (as bs : List Expr) : heightAll (as ++ bs) = max (heightAll as) (heightAll bs) := by
  induction as with
  | nil => simp [heightAll]
  | cons a as ih => rw [List.cons_append, heightAll, ih, heightAll, Nat.max_assoc]

theorem heightAll_le_iff {as : List Expr} {n : Nat} : heightAll as ≤ n ↔ ∀ a ∈ as, a.height ≤ n := by
  induction as with
  | nil => simp [heightAll]
  | cons a as ih => rw [heightAll, Nat.max_le, ih, List.forall_mem_cons]

theorem height_pos (e : Expr) : 0 < e.height := by
  cases e <;> simp [height]

/-! ## Nodes -/

mutual

/-- the nodes of the tree, operands from left to right and then the node itself -/
def nodes : Expr → List Expr
  | .unary op a => a.nodes ++ [.unary op a]
  | .binary op a b => a.nodes ++ b.nodes ++ [.binary op a b]
  | .call name args => nodesAll args ++ [.call name args]
  | e => [e]

/-- the nodes of several trees, one tree after the other -/
def nodesAll : List Expr → List Expr
  | [] => []
  | a :: as => a.nodes ++ nodesAll as

end

theorem nodesAll_eq_flatMap (as : List Expr) : nodesAll as = as.flatMap nodes := by
  induction as with
  | nil => rfl
  | cons a as ih => rw [nodesAll, ih, List.flatMap_cons]

/-- the literals of the tree, from left to right -/
def literals (e : Expr) : List Binary64 :=
  e.nodes.filterMap fun
    | .number x => some x
    | _ => none

theorem mem_literals {e : Expr} {x : Binary64} : x ∈ e.literals ↔ .number x ∈ e.nodes := by
  simp only [literals, List.mem_filterMap]
  constructor
  · rintro ⟨n, hn, h⟩
    cases n <;> simp_all
  · intro h
    exact ⟨_, h, rfl⟩

end Expr

/-! ## Definitions -/

/-- both sides -/
def Comparison.exprs (c : Comparison) : List Expr := [c.left, c.right]

/-- the guard from left to right, then the value -/
def Clause.exprs (c : Clause) : List Expr := c.guard.flatMap Comparison.exprs ++ [c.value]

namespace Declaration

/-- the expressions of the clauses in order, then the body -/
def exprs (d : Declaration) : List Expr := d.clauses.flatMap Clause.exprs ++ [d.body]

/-- the nodes of all expressions in order -/
def nodes (d : Declaration) : List Expr := d.exprs.flatMap Expr.nodes

/-- the literals of all expressions in order -/
def literals (d : Declaration) : List Binary64 := d.exprs.flatMap Expr.literals

end Declaration

end ComplexFormula

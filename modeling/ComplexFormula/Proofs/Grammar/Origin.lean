/-
Where the nodes of a tree come from: every leaf and every call of a phrase was written by one of its tokens, and every
operator node carries one of the names that the grammar knows.

- `Written`: the node was written by one of the tokens.
- `Phrase.written`: so is every node of a phrase.
-/
import ComplexFormula.Proofs.Grammar.Phrase
import ComplexFormula.Proofs.Tree

namespace ComplexFormula.Grammar

/-- the node was written by one of the tokens, or it is an operator of the grammar -/
def Written (params : List Param) (ts : List Token) : Expr → Prop
  | .number x => ∃ t ∈ ts, t.kind = .number ∧ Decimal.read? t.text = some x
  | .param name index => (∃ t ∈ ts, t.kind = .identifier ∧ t.text = name) ∧
      params.find? (·.name == name) = some ⟨name, index⟩
  | .constant name => ∃ t ∈ ts, t.text = name ∧
      (t.kind = .identifier ∧ (∀ p ∈ params, p.name ≠ name) ∨ t.kind = .constant)
  | .unary op _ => op ∈ ["neg", "fac", "abs"]
  | .binary op _ _ => op ∈ ["add", "sub", "mul", "div", "mod", "pow"]
  | .call name _ => ∃ t ∈ ts, t.kind = .function ∧ t.text = name

variable {params : List Param} {level : Level} {bars : Bool} {ts us : List Token} {e : Expr}

theorem Written.mono (h : Written params ts e) (hsub : ts ⊆ us) : Written params us e := by
  cases e with
  | number | constant | call =>
    obtain ⟨t, ht, h⟩ := h
    exact ⟨t, hsub ht, h⟩
  | param =>
    obtain ⟨⟨t, ht, h⟩, hp⟩ := h
    exact ⟨⟨t, hsub ht, h⟩, hp⟩
  | unary | binary => exact h

theorem SumSign.mem_names {t : Token} {op : String} (h : SumSign t op) :
    op ∈ ["add", "sub", "mul", "div", "mod", "pow"] := by
  obtain ⟨-, rfl⟩ | ⟨-, rfl⟩ := h <;> decide

theorem ProductSign.mem_names {t : Token} {op : String} (h : ProductSign t op) :
    op ∈ ["add", "sub", "mul", "div", "mod", "pow"] := by
  obtain ⟨-, rfl⟩ | ⟨-, rfl⟩ | ⟨-, rfl⟩ := h <;> decide

/-- the nodes of an application are those of its operands and the node itself -/
theorem written_nodes_snoc {nodes : List Expr} (hnodes : ∀ n ∈ nodes, Written params ts n) (he : Written params ts e) :
    ∀ n ∈ nodes ++ [e], Written params ts n := by
  intro n hn
  rcases List.mem_append.1 hn with hn | hn
  · exact hnodes n hn
  · rw [List.mem_singleton.1 hn]
    exact he

/-- **Every node of a phrase was written** by one of its tokens. -/
theorem Phrase.written (h : Phrase params level bars ts e) : ∀ n ∈ e.nodes, Written params ts n := by
  induction h with
  | lift _ _ ih => exact ih
  | @sum _ ts t us _ _ _ _ ht _ iha ihb | @product _ ts t us _ _ _ _ ht _ iha ihb =>
    refine written_nodes_snoc (fun n hn => ?_) ht.mem_names
    rcases List.mem_append.1 hn with hn | hn
    · exact (iha n hn).mono (List.subset_append_left ts _)
    · exact (ihb n hn).mono fun u hu => List.mem_append_right ts (List.mem_cons_of_mem t hu)
  | @juxtaposed _ ts us _ _ _ _ _ iha ihb =>
    refine written_nodes_snoc (fun n hn => ?_) (by simp [Written])
    rcases List.mem_append.1 hn with hn | hn
    · exact (iha n hn).mono (List.subset_append_left ts us)
    · exact (ihb n hn).mono (List.subset_append_right ts us)
  | @power _ ts t us _ _ _ _ _ iha ihb =>
    refine written_nodes_snoc (fun n hn => ?_) (by simp [Written])
    rcases List.mem_append.1 hn with hn | hn
    · exact (iha n hn).mono (List.subset_append_left ts _)
    · exact (ihb n hn).mono fun u hu => List.mem_append_right ts (List.mem_cons_of_mem t hu)
  | @minus _ t ts _ _ _ ih =>
    exact written_nodes_snoc (fun n hn => (ih n hn).mono (List.subset_cons_self t ts)) (by simp [Written])
  | @plus _ t ts _ _ _ ih => exact fun n hn => (ih n hn).mono (List.subset_cons_self t ts)
  | @factorial _ ts t _ _ _ ih =>
    exact written_nodes_snoc (fun n hn => (ih n hn).mono (List.subset_append_left ts [t])) (by simp [Written])
  | @number _ t x ht hx =>
    intro n hn
    rw [List.mem_singleton.1 hn]
    exact ⟨t, List.mem_singleton_self t, ht, hx⟩
  | @param _ t p ht hp =>
    intro n hn
    have hname : p.name = t.text := by simpa using List.find?_some hp
    rw [List.mem_singleton.1 hn]
    exact ⟨⟨t, List.mem_singleton_self t, ht, hname.symm⟩, by rw [hname, hp, ← hname]⟩
  | @name _ t ht hp =>
    intro n hn
    rw [List.mem_singleton.1 hn]
    exact ⟨t, List.mem_singleton_self t, rfl, .inl ⟨ht, hp⟩⟩
  | @constant _ t ht =>
    intro n hn
    rw [List.mem_singleton.1 hn]
    exact ⟨t, List.mem_singleton_self t, rfl, .inr ht⟩
  | @group _ o ts c _ _ _ _ ih =>
    intro n hn
    exact (ih n hn).mono fun u hu => List.mem_append_left [c] (List.mem_cons_of_mem o hu)
  | @modulus _ o ts c _ _ _ _ ih =>
    refine written_nodes_snoc (fun n hn => ?_) (by simp [Written])
    exact (ih n hn).mono fun u hu => List.mem_append_left [c] (List.mem_cons_of_mem o hu)
  | @emptyCall _ f _ _ hf =>
    intro n hn
    rw [List.mem_singleton.1 hn]
    exact ⟨f, List.mem_cons_self, hf, rfl⟩
  | @firstArgument _ f o ts a hf _ _ ih =>
    refine written_nodes_snoc (fun n hn => ?_) ⟨f, List.mem_cons_self, hf, rfl⟩
    rw [Expr.nodesAll_eq_flatMap, List.flatMap_singleton] at hn
    exact (ih n hn).mono fun u hu => List.mem_cons_of_mem f (List.mem_cons_of_mem o hu)
  | @nextArgument _ ts c us name as b _ _ _ ihas ihb =>
    have hcall : Written params ts (.call name as) := ihas _ (by simp [Expr.nodes])
    refine written_nodes_snoc (fun n hn => ?_) (hcall.mono (List.subset_append_left ts (c :: us)))
    rw [Expr.nodesAll_eq_flatMap, List.flatMap_append, List.flatMap_singleton] at hn
    rcases List.mem_append.1 hn with hn | hn
    · refine (ihas n ?_).mono (List.subset_append_left ts _)
      rw [Expr.nodes, Expr.nodesAll_eq_flatMap]
      exact List.mem_append_left _ hn
    · exact (ihb n hn).mono fun u hu => List.mem_append_right ts (List.mem_cons_of_mem c hu)
  | @call _ ts c _ _ _ ih => exact fun n hn => (ih n hn).mono (List.subset_append_left ts [c])

end ComplexFormula.Grammar

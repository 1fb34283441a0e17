/-
Variables are bound to their parameters. A definition that was read refers to each parameter by its place, and no
constant of it has the name of a parameter: a name is an identifier everywhere or a constant everywhere, whatever words
the library holds, and an identifier with the name of a parameter is that parameter.

- `kind_eq_of_text_eq`: tokens of one text are identifiers alike or constants alike.
- `Declaration.Bound`: the names of a definition are bound.
- `declaration_bound`: **so they are** in every definition that was read without further hooks.
-/
import ComplexFormula.Formula
import ComplexFormula.Proofs.Definition.Reading
import ComplexFormula.Proofs.Scanning.Names

namespace ComplexFormula

/-! ## Kinds of names -/

variable {r : Recipe} {tokens : List Token} {d : Declaration}

/-- tokens of one text are identifiers alike or constants alike -/
theorem kind_eq_of_text_eq (hhooks : r.hooks = []) (h : r.tokens = .ok tokens) {t u : Token} (ht : t ∈ tokens)
    (hu : u ∈ tokens) (htext : t.text = u.text) (htkind : t.kind = .identifier ∨ t.kind = .constant)
    (hukind : u.kind = .identifier ∨ u.kind = .constant) : t.kind = u.kind := by
  have hmost : Hook.AtMostImaginaryUnit r.allHooks := .inr (by rw [Recipe.allHooks, hhooks])
  have hone := (name_of_token hmost h ht htkind).1
  have hother := (name_of_token hmost h hu hukind).1
  rw [← hone, ← hother, htext]

/-- with its hook the imaginary unit is no identifier -/
theorem kindAfter_unit_ne (kind : Token.Kind) : Hook.kindAfter [.imaginaryUnit] ⟨kind, "i"⟩ ≠ .identifier := by
  cases kind <;> decide

theorem text_ne_unit (hhooks : r.hooks = []) (h : r.tokens = .ok tokens) {t : Token} (ht : t ∈ tokens)
    (hkind : t.kind = .identifier) : t.text ≠ "i" := by
  intro htext
  have hall : r.allHooks = [Hook.imaginaryUnit] := by rw [Recipe.allHooks, hhooks]
  have hname := (name_of_token (.inr hall) h ht (.inl hkind)).1
  rw [hall, htext, hkind] at hname
  exact kindAfter_unit_ne _ hname

/-! ## Definitions -/

/-- every variable is bound to its parameter, and no constant hides one -/
structure Declaration.Bound (d : Declaration) : Prop where
  nodup : d.paramNames.Nodup
  noUnit : "i" ∉ d.paramNames
  index : ∀ k, (hk : k < d.params.length) → d.params[k].index = k
  param : ∀ name index, Expr.param name index ∈ d.nodes →
    ∃ hindex : index < d.params.length, d.params[index].name = name
  constant : ∀ name, Expr.constant name ∈ d.nodes → name ∉ d.paramNames

/-- **Names are bound** in every definition that is read without further hooks, in whatever library. -/
theorem declaration_bound (hhooks : r.hooks = []) (h : r.declaration = .ok d) : d.Bound := by
  obtain ⟨tokens, htokens, hread⟩ := bind_eq_ok_iff.1 h
  have hread := Declaration.isRead_of_ofTokens hread
  constructor
  case nodup => exact hread.nodup
  case noUnit =>
    intro hmem
    obtain ⟨t, ht, hkind, htext⟩ := hread.paramName _ hmem
    exact text_ne_unit hhooks htokens ht hkind htext
  case index =>
    intro k hk
    have hplace : (numbered 0 d.paramNames)[k]? = some d.params[k] := by
      rw [← hread.params]
      exact List.getElem?_eq_getElem hk
    exact index_of_getElem?_numbered hplace
  case param =>
    intro name index hn
    obtain ⟨e, he, hn⟩ := List.mem_flatMap.1 hn
    obtain ⟨-, hfind⟩ := hread.written he _ hn
    have hmem := List.mem_of_find?_eq_some hfind
    rw [hread.params] at hmem
    have hplace := getElem?_of_mem_numbered hmem
    rw [← hread.params] at hplace
    obtain ⟨hindex, hp⟩ := List.getElem?_eq_some_iff.1 hplace
    exact ⟨hindex, congrArg Param.name hp⟩
  case constant =>
    intro name hn hmem
    obtain ⟨e, he, hn⟩ := List.mem_flatMap.1 hn
    obtain ⟨t, ht, rfl, ⟨-, hfree⟩ | hconstant⟩ := hread.written he _ hn
    · obtain ⟨p, hp, hname⟩ := List.mem_map.1 hmem
      exact hfree p hp hname
    · obtain ⟨u, hu, hidentifier, htext⟩ := hread.paramName _ hmem
      have hsame := kind_eq_of_text_eq hhooks htokens ht hu htext.symm (.inr hconstant) (.inl hidentifier)
      rw [hconstant, hidentifier] at hsame
      cases hsame

/-- parameters whose names begin words of the library: the constant `x12` and the function `y2` -/
def wordyRecipe : Recipe where
  source := "f(x1, y) = x12 + y2(x1) if x1 < y <= i; x1 * y"
  library := (Library.empty.registerConstant "x12" .unit).registerFunction (.unary "y2" fun z => z)

theorem declaration_bound_wordy : ∃ d, wordyRecipe.declaration = .ok d ∧ d.paramNames = ["x1", "y"] ∧ d.Bound := by
  have hread : wordyRecipe.declaration.map Declaration.paramNames = .ok ["x1", "y"] := by decide +kernel
  obtain ⟨d, hd, hnames⟩ := map_eq_ok_iff.1 hread
  exact ⟨d, hd, hnames, declaration_bound rfl hd⟩

end ComplexFormula

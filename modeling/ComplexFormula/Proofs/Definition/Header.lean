/-
Heads of definitions. A head is read exactly when it has the written form: a name, bracketed parameter names with
commas between them, none of them twice, and the equals sign.

- `Listed`: names with commas between them, as tokens.
- `numbered`: the parameters of a list of names.
- `getElem?_of_mem_numbered`: each of them stands at its number.
- `readParams_eq_ok_iff`, `readHead_eq_ok_iff`: what is read, exactly.
-/
import ComplexFormula.Declaration.Reading
import ComplexFormula.Proofs.Outcome

namespace ComplexFormula

/-- the tokens are the names with commas between them -/
inductive Listed : List String → List Token → Prop where
  | single {t} (ht : t.kind = .identifier) : Listed [t.text] [t]
  | cons {t c names ts} (ht : t.kind = .identifier) (hc : c.kind = .comma) (h : Listed names ts) :
    Listed (t.text :: names) (t :: c :: ts)

/-- parameters of the given names, their places counted from `n` -/
def numbered (n : Nat) (names : List String) : List Param := (names.zipIdx n).map fun p => ⟨p.1, p.2⟩

theorem numbered_cons (n : Nat) (name : String) (names : List String) :
    numbered n (name :: names) = ⟨name, n⟩ :: numbered (n + 1) names := rfl

theorem map_name_numbered (n : Nat) (names : List String) : (numbered n names).map Param.name = names := by
  simp [numbered, Function.comp_def]

/-- the parameter at a place has the number of the place -/
theorem index_of_getElem?_numbered {names : List String} {k : Nat} {p : Param}
    (h : (numbered 0 names)[k]? = some p) : p.index = k := by
  simp only [numbered, List.getElem?_map, List.getElem?_zipIdx, Option.map_map, Option.map_eq_some_iff] at h
  obtain ⟨name, -, rfl⟩ := h
  exact Nat.zero_add k

/-- a numbered parameter stands at its number -/
theorem getElem?_of_mem_numbered {names : List String} {p : Param} (h : p ∈ numbered 0 names) :
    (numbered 0 names)[p.index]? = some p := by
  obtain ⟨k, hk⟩ := List.mem_iff_getElem?.1 h
  rwa [index_of_getElem?_numbered hk]

theorem exists_of_listed {names : List String} {ts : List Token} (h : Listed names ts) :
    ∀ name ∈ names, ∃ t ∈ ts, t.kind = .identifier ∧ t.text = name := by
  induction h with
  | @single t ht => simpa using ht
  | @cons t c names ts ht _ _ ih =>
    intro name hname
    rcases List.mem_cons.1 hname with rfl | hname
    · exact ⟨t, List.mem_cons_self, ht, rfl⟩
    · obtain ⟨u, hu, h⟩ := ih name hname
      exact ⟨u, List.mem_cons_of_mem t (List.mem_cons_of_mem c hu), h⟩

/-! ## Parameters -/

/-- names that can still be given to parameters -/
def Fresh (done : List Param) (names : List String) : Prop :=
  names.Nodup ∧ ∀ name ∈ names, ∀ p ∈ done, p.name ≠ name

theorem fresh_cons_iff {done : List Param} {name : String} {names : List String} (index : Nat) :
    Fresh done (name :: names) ↔ (∀ p ∈ done, p.name ≠ name) ∧ Fresh (⟨name, index⟩ :: done) names := by
  simp only [Fresh, List.nodup_cons, List.forall_mem_cons]
  constructor
  · rintro ⟨⟨hname, hnodup⟩, hfirst, hrest⟩
    refine ⟨hfirst, hnodup, fun other hother => ⟨?_, hrest other hother⟩⟩
    rintro rfl
    exact hname hother
  · rintro ⟨hfirst, hnodup, hrest⟩
    exact ⟨⟨fun hname => (hrest name hname).1 rfl, hnodup⟩, hfirst, fun other hother => (hrest other hother).2⟩

theorem any_name_eq_false_iff {done : List Param} {name : String} :
    done.any (·.name == name) = false ↔ ∀ p ∈ done, p.name ≠ name := by
  simp

theorem readParams_ok {stop : Nat} {done params : List Param} {ts rest : List Token}
    (h : readParams stop done ts = .ok (params, rest)) :
    ∃ names us c, ts = us ++ c :: rest ∧ Listed names us ∧ c.kind = .rightParen ∧ Fresh done names ∧
      params = done.reverse ++ numbered done.length names := by
  fun_induction readParams stop done ts with
  | case1 | case2 | case3 | case4 | case7 => cases h
  | case5 done t ht hfresh done' c rest' hc =>
    obtain ⟨rfl, rfl⟩ := Prod.mk.inj (Except.ok.inj h)
    rw [Bool.not_eq_true, any_name_eq_false_iff] at hfresh
    refine ⟨[t.text], [t], c, rfl, .single (not_not.1 ht), hc, ?_, ?_⟩
    · exact (fresh_cons_iff done.length).2 ⟨hfresh, List.nodup_nil, by simp⟩
    · simp [done', numbered]
  | case6 done t ht hfresh done' s rest' _ hs ih =>
    obtain ⟨names, us, c, rfl, hlisted, hc, hnames, rfl⟩ := ih h
    rw [Bool.not_eq_true, any_name_eq_false_iff] at hfresh
    refine ⟨t.text :: names, t :: s :: us, c, rfl, .cons (not_not.1 ht) hs hlisted, hc, ?_, ?_⟩
    · exact (fresh_cons_iff _).2 ⟨hfresh, hnames⟩
    · simp [done', numbered_cons]

theorem readParams_of_listed {names : List String} {us : List Token} (h : Listed names us) (stop : Nat)
    (done : List Param) (hfresh : Fresh done names) {c : Token} (hc : c.kind = .rightParen) (rest : List Token) :
    readParams stop done (us ++ c :: rest) = .ok (done.reverse ++ numbered done.length names, rest) := by
  induction h generalizing done with
  | @single t ht =>
    have hany := any_name_eq_false_iff.2 ((fresh_cons_iff done.length).1 hfresh).1
    simp [readParams, ht, hany, hc, numbered]
  | @cons t s names ts ht hs _ ih =>
    obtain ⟨hfirst, hfresh⟩ := (fresh_cons_iff done.length).1 hfresh
    have hany := any_name_eq_false_iff.2 hfirst
    have hrest := ih _ hfresh
    simp only [List.length_cons] at hrest
    rw [List.cons_append, List.cons_append, readParams.eq_def]
    simp [ht, hany, hs, hrest, numbered_cons]

/-- **Parameters** are read exactly from fresh names with commas between them and a closing bracket behind. -/
theorem readParams_eq_ok_iff {stop : Nat} {done params : List Param} {ts rest : List Token} :
    readParams stop done ts = .ok (params, rest) ↔
      ∃ names us c, ts = us ++ c :: rest ∧ Listed names us ∧ c.kind = .rightParen ∧ Fresh done names ∧
        params = done.reverse ++ numbered done.length names := by
  constructor
  · exact readParams_ok
  · rintro ⟨names, us, c, rfl, hlisted, hc, hfresh, rfl⟩
    exact readParams_of_listed hlisted stop done hfresh hc rest

/-! ## Heads -/

theorem expect_eq_ok_iff {kind : Token.Kind} {due : HeadPart} {stop : Nat} {ts rest : List Token} {t : Token} :
    expect kind due stop ts = .ok (t, rest) ↔ ts = t :: rest ∧ t.kind = kind := by
  cases ts with
  | nil => simp [expect]
  | cons u us =>
    by_cases hu : u.kind = kind
    · simp only [expect, hu, if_true, Except.ok.injEq, Prod.mk.injEq, List.cons.injEq]
      constructor
      · rintro ⟨rfl, rfl⟩
        exact ⟨⟨rfl, rfl⟩, hu⟩
      · intro h
        exact h.1
    · simp only [expect, hu, if_false, reduceCtorEq, List.cons.injEq, false_iff]
      rintro ⟨⟨rfl, -⟩, hk⟩
      exact hu hk

/-- the tokens are the head of a definition with that name and these parameter names -/
structure IsHead (name : String) (names : List String) (ts : List Token) : Prop where
  shape : ∃ n o us c eq, ts = n :: o :: us ++ [c, eq] ∧ n.kind = .identifier ∧ n.text = name ∧ o.kind = .leftParen ∧
    (Listed names us ∨ names = [] ∧ us = []) ∧ c.kind = .rightParen ∧ eq.kind = .equals
  nodup : names.Nodup

/-- the tokens between the brackets of a head -/
def readBracketed (stop : Nat) (tokens : List Token) : Except Fault (List Param × List Token) :=
  match tokens with
  | t :: rest => if t.kind = .rightParen then .ok ([], rest) else readParams stop [] tokens
  | [] => readParams stop [] []

/-- a head one part after the other -/
theorem readHead_eq (stop : Nat) (tokens : List Token) : readHead stop tokens =
    (expect .identifier .functionName stop tokens >>= fun n =>
      expect .leftParen .openingBracket stop n.2 >>= fun o =>
      readBracketed stop o.2 >>= fun p =>
      expect .equals .equalsSign stop p.2 >>= fun eq => .ok (n.1.text, p.1, eq.2)) := by
  unfold readHead
  refine bind_congr fun n => bind_congr fun o => ?_
  rcases o with ⟨o, _ | ⟨t, ts⟩⟩
  · rfl
  · unfold readBracketed
    dsimp only
    split <;> rfl

theorem readBracketed_eq_ok_iff {stop : Nat} {ts rest : List Token} {params : List Param} :
    readBracketed stop ts = .ok (params, rest) ↔ ∃ names us c, ts = us ++ c :: rest ∧
      (Listed names us ∨ names = [] ∧ us = []) ∧ c.kind = .rightParen ∧ names.Nodup ∧ params = numbered 0 names := by
  constructor
  · intro h
    unfold readBracketed at h
    split at h
    case h_1 c rest' =>
      split at h
      case isTrue hc =>
        obtain ⟨rfl, rfl⟩ := Prod.mk.inj (Except.ok.inj h)
        exact ⟨[], [], c, rfl, .inr ⟨rfl, rfl⟩, hc, List.nodup_nil, rfl⟩
      case isFalse =>
        obtain ⟨names, us, c, hts, hlisted, hc, hfresh, rfl⟩ := readParams_eq_ok_iff.1 h
        exact ⟨names, us, c, hts, .inl hlisted, hc, hfresh.1, rfl⟩
    case h_2 => cases h
  · rintro ⟨names, us, c, rfl, hlisted | ⟨rfl, rfl⟩, hc, hnodup, rfl⟩
    · have hread := readParams_of_listed hlisted stop [] ⟨hnodup, by simp⟩ hc rest
      obtain ⟨t, us', rfl, ht⟩ : ∃ t us', us = t :: us' ∧ t.kind = .identifier := by
        cases hlisted with
        | single ht | cons ht => exact ⟨_, _, rfl, ht⟩
      rw [List.cons_append, readBracketed, if_neg (by simp [ht]), ← List.cons_append, hread]
      rfl
    · simp [readBracketed, hc, numbered]

/-- **A head** is read exactly where one is written. -/
theorem readHead_eq_ok_iff {stop : Nat} {tokens rest : List Token} {name : String} {params : List Param} :
    readHead stop tokens = .ok (name, params, rest) ↔
      ∃ names head, tokens = head ++ rest ∧ IsHead name names head ∧ params = numbered 0 names := by
  simp only [readHead_eq, bind_eq_ok_iff, Prod.exists, expect_eq_ok_iff, readBracketed_eq_ok_iff, Except.ok.injEq,
    Prod.mk.injEq]
  constructor
  · rintro ⟨n, _, ⟨rfl, hn⟩, o, _, ⟨rfl, ho⟩, _, _, ⟨names, us, c, rfl, hlisted, hc, hnodup, rfl⟩, eq, _, ⟨rfl, heq⟩,
      rfl, rfl, rfl⟩
    exact ⟨names, n :: o :: us ++ [c, eq], by simp, ⟨⟨n, o, us, c, eq, rfl, hn, rfl, ho, hlisted, hc, heq⟩, hnodup⟩, rfl⟩
  · rintro ⟨names, head, rfl, ⟨⟨n, o, us, c, eq, rfl, hn, rfl, ho, hlisted, hc, heq⟩, hnodup⟩, rfl⟩
    exact ⟨n, o :: (us ++ c :: eq :: rest), ⟨by simp, hn⟩, o, us ++ c :: eq :: rest, ⟨rfl, ho⟩, _, eq :: rest,
      ⟨names, us, c, rfl, hlisted, hc, hnodup, rfl⟩, eq, rest, ⟨rfl, heq⟩, rfl, rfl, rfl⟩

end ComplexFormula

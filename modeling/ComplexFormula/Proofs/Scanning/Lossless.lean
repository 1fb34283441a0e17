/-
No character gets lost in a scan. The scan goes in rounds, each of which takes a blank or a token off the text, and
keeps what it has taken apart: the text behind it is made of blanks and of the tokens, in order, and the bytes of a
token are the place of its text. A round never takes nothing, so as many rounds as there are characters are enough.

- `ScanState.round`, `ScanState.rounds`: one round, and the loop for at most so many of them.
- `CutInto`: a text taken apart into blanks and tokens.
- `CutInto.round`, `CutInto.rounds`: the text behind a scan is so taken apart, after every round.
- `Lossless`: every token is its own piece of the source, and whatever is between two tokens is blank.
- `scan_lossless`: **tokens lose nothing** but white space, and the scan of any text ends.
-/
import ComplexFormula.Proofs.Outcome
import ComplexFormula.Proofs.Scanning.Spelling
import Mathlib.Data.String.Basic

namespace ComplexFormula

open String (utf8Len)

/-! ## Rounds -/

/-- how far a scan has come: the byte, the tokens that were read, latest first, and the text that remains -/
structure ScanState where
  pos : Nat
  done : List Token
  rest : List Char

namespace ScanState

/-- nothing has been read -/
def start (source : String) : ScanState := ⟨0, [], source.toList⟩

variable {words : List Word} {s s' : ScanState}

/-- one blank or one token off the text that remains -/
def round (words : List Word) (s : ScanState) : Except Fault ScanState :=
  match s.rest with
  | [] => .ok s
  | c :: cs =>
    if Text.isBlank c then .ok ⟨s.pos + c.utf8Size, s.done, cs⟩
    else
      match extent? words c cs with
      | none => .error (.unexpectedCharacter c s.pos)
      | some (kind, size) =>
        (tokenAt kind s.pos (.ofList ((c :: cs).take size))).map fun t => ⟨t.stop, t :: s.done, (c :: cs).drop size⟩

/-- at most so many rounds; nothing happens at the end of the text -/
def rounds (words : List Word) : Nat → ScanState → Except Fault ScanState
  | 0, s => .ok s
  | n + 1, s => do rounds words n (← s.round words)

/-- a round takes the token that it finds, and leaves what is behind it -/
theorem round_of_extent {c : Char} {part behind : List Char} {kind : Token.Kind} (hrest : s.rest = c :: (part ++ behind))
    (hc : Text.isBlank c = false) (hextent : extent? words c (part ++ behind) = some (kind, part.length + 1)) :
    s.round words =
      (tokenAt kind s.pos (.ofList (c :: part))).map fun t => ⟨t.stop, t :: s.done, behind⟩ := by
  have hblank : ¬Text.isBlank c = true := by simp [hc]
  simp only [round, hrest, if_neg hblank, hextent, List.take_succ_cons, List.take_left, List.drop_succ_cons,
    List.drop_left]

/-- what one round does: it takes a blank, or a token that stands where the text that remains begins -/
theorem round_cases (h : s.round words = .ok s') (hrest : s.rest ≠ []) :
    (∃ c, Text.isBlank c = true ∧ s.rest = c :: s'.rest ∧ s'.pos = s.pos + c.utf8Size ∧ s'.done = s.done) ∨
      ∃ c cs kind, Text.isBlank c = false ∧ s.rest = c :: cs ++ s'.rest ∧ s'.pos = s.pos + utf8Len (c :: cs) ∧
        s'.done = ⟨kind, .ofList (c :: cs), s.pos, s.pos + utf8Len (c :: cs)⟩ :: s.done := by
  obtain ⟨c, cs, hcs⟩ := List.exists_cons_of_ne_nil hrest
  by_cases hc : Text.isBlank c = true
  · simp only [round, hcs, if_pos hc] at h
    obtain rfl := Except.ok.inj h
    exact .inl ⟨c, hc, hcs, rfl, rfl⟩
  · cases hextent : extent? words c cs with
    | none => simp [round, hcs, hc, hextent] at h
    | some extent =>
      -- the token has characters, and they are within the text
      obtain ⟨kind, size⟩ := extent
      obtain ⟨part, behind, rfl, rfl⟩ := exists_cut hextent
      rw [Bool.not_eq_true] at hc
      rw [round_of_extent hcs hc hextent] at h
      obtain ⟨t, ht, rfl⟩ := map_eq_ok_iff.1 h
      obtain ⟨-, rfl⟩ := tokenAt_eq_ok_iff.1 ht
      rw [String.utf8ByteSize_ofList]
      exact .inr ⟨c, part, kind, hc, hcs, rfl, rfl⟩

/-- **Progress.** Every round takes at least one character, and moves on by the bytes that it takes. -/
theorem round_progress (h : s.round words = .ok s') (hrest : s.rest ≠ []) :
    ∃ taken, taken ≠ [] ∧ s.rest = taken ++ s'.rest ∧ s'.pos = s.pos + utf8Len taken := by
  obtain ⟨c, -, hc, hpos, -⟩ | ⟨c, cs, kind, -, hcs, hpos, -⟩ := round_cases h hrest
  · exact ⟨[c], by simp, hc, by simpa using hpos⟩
  · exact ⟨c :: cs, by simp, hcs, hpos⟩

theorem round_length_lt (h : s.round words = .ok s') (hrest : s.rest ≠ []) : s'.rest.length < s.rest.length := by
  obtain ⟨taken, htaken, hsplit, -⟩ := round_progress h hrest
  have hpos := List.length_pos_iff.2 htaken
  rw [hsplit, List.length_append]
  omega

/-- a scan is a round and the scan of what that leaves -/
theorem scanFrom_eq_round (hrest : s.rest ≠ []) :
    scanFrom words s.pos s.done s.rest = s.round words >>= fun s' => scanFrom words s'.pos s'.done s'.rest := by
  obtain ⟨c, cs, hcs⟩ := List.exists_cons_of_ne_nil hrest
  by_cases hc : Text.isBlank c = true
  · rw [round, hcs, scanFrom]
    simp only [if_pos hc, ok_bind]
  · rw [Bool.not_eq_true] at hc
    cases hextent : extent? words c cs with
    | none =>
      rw [hcs, scanFrom_of_none hc hextent]
      simp [round, hcs, hc, hextent]
    | some extent =>
      obtain ⟨kind, size⟩ := extent
      obtain ⟨part, behind, rfl, rfl⟩ := exists_cut hextent
      rw [round_of_extent hcs hc hextent, hcs, scanFrom_of_extent hc hextent]
      cases tokenAt kind s.pos (.ofList (c :: part)) <;> rfl

theorem rounds_of_rest_nil (n : Nat) (h : s.rest = []) : s.rounds words n = .ok s := by
  have hround : s.round words = .ok s := by rw [round, h]
  induction n with
  | zero => rfl
  | succ n ih => rw [rounds, hround, ok_bind, ih]

/-- **The loop ends.** As many rounds as characters remain give what the scan gives, and leave no character. -/
theorem rounds_eq_scanFrom (words : List Word) {n : Nat} (s : ScanState) (hn : s.rest.length ≤ n) :
    (s.rounds words n).map (fun s' => s'.done.reverse) = scanFrom words s.pos s.done s.rest ∧
      ∀ s', s.rounds words n = .ok s' → s'.rest = [] := by
  induction n generalizing s with
  | zero =>
    have hnil : s.rest = [] := List.length_eq_zero_iff.1 (Nat.le_zero.1 hn)
    refine ⟨by rw [hnil, scanFrom]; rfl, ?_⟩
    intro s' hs'
    obtain rfl := Except.ok.inj hs'
    exact hnil
  | succ n ih =>
    by_cases hrest : s.rest = []
    · rw [rounds_of_rest_nil (n + 1) hrest]
      refine ⟨by rw [hrest, scanFrom]; rfl, ?_⟩
      intro s' hs'
      obtain rfl := Except.ok.inj hs'
      exact hrest
    · rw [scanFrom_eq_round hrest, rounds]
      cases hround : s.round words with
      | error fault => exact ⟨rfl, fun s' hs' => (by cases hs')⟩
      | ok next =>
        have hlt := round_length_lt hround hrest
        exact ih next (by omega)

end ScanState

/-! ## Blanks and tokens -/

/-- the text is made of blanks and of the tokens, the latest of them first, and each token knows its bytes -/
inductive CutInto : List Char → List Token → Prop where
  | nil : CutInto [] []
  | blank {front done c} (hc : Text.isBlank c = true) (h : CutInto front done) : CutInto (front ++ [c]) done
  | token {front done c cs} (kind : Token.Kind) (hc : Text.isBlank c = false) (h : CutInto front done) :
    CutInto (front ++ c :: cs)
      (⟨kind, .ofList (c :: cs), utf8Len front, utf8Len front + utf8Len (c :: cs)⟩ :: done)

namespace CutInto

variable {words : List Word} {text front : List Char} {done : List Token} {t : Token}

/-- the text behind the scan is taken apart into the tokens that were read -/
def Upto (text : List Char) (s : ScanState) : Prop :=
  ∃ front, text = front ++ s.rest ∧ s.pos = utf8Len front ∧ CutInto front s.done

theorem upto_start (source : String) : Upto source.toList (.start source) := ⟨[], rfl, rfl, .nil⟩

/-- **One round** keeps the text behind the scan taken apart. -/
theorem round {s s' : ScanState} (hs : Upto text s) (h : s.round words = .ok s') : Upto text s' := by
  by_cases hrest : s.rest = []
  · rw [ScanState.round, hrest] at h
    obtain rfl := Except.ok.inj h
    exact hs
  · obtain ⟨front, rfl, hfront, hcut⟩ := hs
    obtain ⟨c, hc, hsplit, hpos, hdone⟩ | ⟨c, cs, kind, hc, hsplit, hpos, hdone⟩ := ScanState.round_cases h hrest
    · refine ⟨front ++ [c], by simp [hsplit], by simp [hpos, hfront], ?_⟩
      rw [hdone]
      exact .blank hc hcut
    · refine ⟨front ++ c :: cs, by simp [hsplit], by simp [hpos, hfront], ?_⟩
      rw [hdone, hfront]
      exact .token kind hc hcut

/-- **A whole run** keeps it so as well. -/
theorem rounds {n : Nat} {s s' : ScanState} (hs : Upto text s) (h : s.rounds words n = .ok s') : Upto text s' := by
  induction n generalizing s with
  | zero => exact Except.ok.inj h ▸ hs
  | succ n ih =>
    obtain ⟨next, hnext, h⟩ := bind_eq_ok_iff.1 h
    exact ih (round hs hnext) h

/-- every token is a piece of the text, and begins with a character that is not blank -/
theorem piece (h : CutInto front done) (ht : t ∈ done) : ∃ before c cs behind,
    front = before ++ c :: cs ++ behind ∧ Text.isBlank c = false ∧ t.text = .ofList (c :: cs) ∧
      t.start = utf8Len before ∧ t.stop = utf8Len before + utf8Len (c :: cs) := by
  induction h with
  | nil => cases ht
  | @blank front done b _ _ ih =>
    obtain ⟨before, c, cs, behind, rfl, hc⟩ := ih ht
    exact ⟨before, c, cs, behind ++ [b], by simp, hc⟩
  | @token front done b bs kind hb _ ih =>
    rcases List.mem_cons.1 ht with rfl | ht
    · exact ⟨front, b, bs, [], by simp, hb, rfl, rfl, rfl⟩
    · obtain ⟨before, c, cs, behind, rfl, hc⟩ := ih ht
      exact ⟨before, c, cs, behind ++ b :: bs, by simp, hc⟩

theorem stop_le (h : CutInto front done) (ht : t ∈ done) : t.stop ≤ utf8Len front := by
  obtain ⟨before, c, cs, behind, rfl, -, -, -, hstop⟩ := h.piece ht
  rw [hstop, String.utf8Len_append, String.utf8Len_append]
  omega

/-- every token ends before the ones that were read later begin -/
theorem ordered (h : CutInto front done) : done.Pairwise fun u t => t.stop ≤ u.start := by
  induction h with
  | nil => exact .nil
  | blank _ _ ih => exact ih
  | token kind _ hcut ih => exact .cons (fun t ht => hcut.stop_le ht) ih

/-- a character that belongs to no token is blank -/
theorem isBlank_of_outside (h : CutInto front done) {before behind : List Char} {c : Char}
    (hfront : front = before ++ c :: behind)
    (houtside : ∀ t ∈ done, ¬(t.start ≤ utf8Len before ∧ utf8Len before < t.stop)) : Text.isBlank c = true := by
  induction h generalizing behind with
  | nil => simp at hfront
  | @blank front done b hb _ ih =>
    rcases List.eq_nil_or_concat behind with rfl | ⟨behind, last, rfl⟩
    · obtain ⟨-, hbc⟩ := List.append_inj' hfront rfl
      exact List.singleton_inj.1 hbc ▸ hb
    · rw [List.concat_eq_append, ← List.cons_append, ← List.append_assoc] at hfront
      exact ih (List.append_inj' hfront rfl).1 houtside
  | @token front done b bs kind hb _ ih =>
    rw [List.forall_mem_cons] at houtside
    obtain ⟨hlatest, houtside⟩ := houtside
    -- the character cannot stand within the latest token
    have hnotWithin : ∀ middle, before = front ++ middle → b :: bs ≠ middle ++ c :: behind := by
      intro middle hbefore hcs
      have hsize : utf8Len (b :: bs) = utf8Len middle + utf8Len (c :: behind) := by
        rw [hcs, String.utf8Len_append]
      have hc := c.utf8Size_pos
      simp only [hbefore, hsize, String.utf8Len_append, String.utf8Len_cons] at hlatest
      omega
    obtain ⟨middle, hbefore, hcs⟩ | ⟨middle, hbefore, hcs⟩ := List.append_eq_append_iff.1 hfront
    · exact absurd hcs (hnotWithin middle hbefore)
    · cases middle with
      | nil => exact absurd hcs.symm (hnotWithin [] (by simpa using hbefore.symm))
      | cons m middle =>
        obtain ⟨rfl, rfl⟩ := List.cons.inj hcs
        exact ih hbefore houtside

end CutInto

/-! ## Sources -/

/-- the tokens take the source apart: nothing of it but white space is left out, and nothing is read twice -/
structure Lossless (source : String) (ts : List Token) : Prop where
  /-- the bytes of a token are a range within the source that is not empty -/
  start_lt_stop : ∀ t ∈ ts, t.start < t.stop
  /-- both ends are boundaries of characters -/
  boundary : ∀ t ∈ ts, String.Pos.Raw.IsValid source ⟨t.start⟩ ∧ String.Pos.Raw.IsValid source ⟨t.stop⟩
  text : ∀ t ∈ ts, String.Pos.Raw.extract source ⟨t.start⟩ ⟨t.stop⟩ = t.text
  ordered : ts.Pairwise fun t u => t.stop ≤ u.start
  first : ∀ t ∈ ts, Text.isBlank (String.Pos.Raw.get source ⟨t.start⟩) = false
  /-- a character that belongs to no token is blank -/
  outside : ∀ p : String.Pos.Raw, p.IsValid source → p < source.rawEndPos →
    (∀ t ∈ ts, ¬(t.start ≤ p.byteIdx ∧ p.byteIdx < t.stop)) → Text.isBlank (p.get source) = true

theorem isValid_utf8Len (front behind : List Char) :
    String.Pos.Raw.IsValid (.ofList (front ++ behind)) ⟨utf8Len front⟩ :=
  String.Pos.Raw.isValid_iff_exists_append.2 ⟨.ofList front, .ofList behind, by simp, by simp⟩

/-- a boundary of characters is the end of some first characters -/
theorem exists_append_of_isValid {text : List Char} {p : String.Pos.Raw} (h : p.IsValid (.ofList text)) :
    ∃ before behind, text = before ++ behind ∧ p = ⟨utf8Len before⟩ := by
  obtain ⟨s, t, hst, rfl⟩ := String.Pos.Raw.isValid_iff_exists_append.1 h
  refine ⟨s.toList, t.toList, ?_, ?_⟩
  · rw [← String.toList_append, ← hst, String.toList_ofList]
  · rw [String.utf8Len_toList]
    rfl

theorem CutInto.lossless {text : List Char} {ts : List Token} (h : CutInto text ts.reverse) :
    Lossless (.ofList text) ts := by
  have hpiece := fun t (ht : t ∈ ts) => h.piece (List.mem_reverse.2 ht)
  constructor
  case start_lt_stop =>
    intro t ht
    obtain ⟨before, c, cs, behind, -, -, -, hstart, hstop⟩ := hpiece t ht
    have hc := c.utf8Size_pos
    rw [hstart, hstop, String.utf8Len_cons]
    omega
  case boundary =>
    intro t ht
    obtain ⟨before, c, cs, behind, rfl, -, -, hstart, hstop⟩ := hpiece t ht
    rw [hstart, hstop, ← String.utf8Len_append]
    refine ⟨?_, isValid_utf8Len _ _⟩
    rw [List.append_assoc]
    exact isValid_utf8Len _ _
  case text =>
    intro t ht
    obtain ⟨before, c, cs, behind, rfl, -, htext, hstart, hstop⟩ := hpiece t ht
    rw [hstart, hstop, htext, String.extract_of_valid]
  case ordered => exact List.pairwise_reverse.1 h.ordered
  case first =>
    intro t ht
    obtain ⟨before, c, cs, behind, rfl, hc, -, hstart, -⟩ := hpiece t ht
    rw [hstart, List.append_assoc, String.get_of_valid]
    exact hc
  case outside =>
    intro p hp hend houtside
    obtain ⟨before, behind, rfl, rfl⟩ := exists_append_of_isValid hp
    rw [String.get_of_valid]
    cases behind with
    | nil => simp [String.Pos.Raw.lt_iff] at hend
    | cons c behind => exact h.isBlank_of_outside rfl fun t ht => houtside t (List.mem_reverse.1 ht)

/-- the tokens of a scan take the source apart -/
theorem lossless_of_scan {lib : Library} {source : String} {ts : List Token} (h : scan lib source = .ok ts) :
    Lossless source ts := by
  have hends := ScanState.rounds_eq_scanFrom lib.lexicon (.start source) (Nat.le_of_eq String.length_toList)
  obtain ⟨s, hs, rfl⟩ := map_eq_ok_iff.1 (hends.1.trans h)
  obtain ⟨front, hfront, -, hcut⟩ := CutInto.rounds (CutInto.upto_start source) hs
  rw [hends.2 s hs, List.append_nil] at hfront
  rw [← String.ofList_toList (s := source), hfront]
  exact CutInto.lossless (by rwa [List.reverse_reverse])

/-- **Tokens lose nothing.** The tokens of a source are pieces of it, in order and apart from each other, and all that
is between them is white space. The scan of any source ends, with its tokens or with a fault: every round takes at
least one character, so that as many rounds as there are characters leave none. -/
theorem scan_lossless (lib : Library) (source : String) :
    (∀ ts, scan lib source = .ok ts → Lossless source ts) ∧
      (∀ s s' : ScanState, s.rest ≠ [] → s.round lib.lexicon = .ok s' →
        ∃ taken, taken ≠ [] ∧ s.rest = taken ++ s'.rest ∧ s'.pos = s.pos + utf8Len taken) ∧
      ((ScanState.start source).rounds lib.lexicon source.length).map (fun s => s.done.reverse) = scan lib source ∧
      ∀ s, (ScanState.start source).rounds lib.lexicon source.length = .ok s → s.rest = [] := by
  have hends := ScanState.rounds_eq_scanFrom lib.lexicon (.start source) (Nat.le_of_eq String.length_toList)
  exact ⟨fun ts hts => lossless_of_scan hts, fun s s' hrest h => ScanState.round_progress h hrest, hends⟩

/-- blanks at either end and within, one of them of three bytes -/
theorem scan_lossless_blanks : ∃ ts, scan .empty " x1 +\u2003.5e+ " = .ok ts ∧ Lossless " x1 +\u2003.5e+ " ts := by
  have hscan : (scan .empty " x1 +\u2003.5e+ ").map (List.map Token.text) = .ok ["x1", "+", ".5", "e", "+"] := by
    decide +kernel
  obtain ⟨ts, hts, -⟩ := map_eq_ok_iff.1 hscan
  exact ⟨ts, hts, (scan_lossless .empty _).1 ts hts⟩

end ComplexFormula
